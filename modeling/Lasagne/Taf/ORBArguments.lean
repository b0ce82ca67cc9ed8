import Mathlib
import Lasagne.Daf.ExpansionCycle

/-!
# Lasagne.Taf.ORBArguments — what the ORB gets of the arguments, and what the services get

`ORB::init` goes over the arguments of the extensions and those of the user with the same two loops.  A parameter goes where
the option before it went.

* `pushArgv_eq` : what comes to the end of a vector;
* `splitLoop_eq` : the two loops, by the option that an argument belongs to;
* `init_splits` : the whole, and `parts_perm`, that every argument is in one of the parts.
-/

namespace Lasagne.Taf.ORBArguments

open Lasagne.Daf

/-! ## The model -/

/-- An `ACE_Arg_Shifter` goes over the arguments in order. -/
structure ArgShifter where
  /-- `cur_arg_strncasecmp(flag)`, at an argument -/
  cur_arg_strncasecmp : Text → Text → ℤ
  cur_arg_strncasecmp_neg : ∀ arg flag, cur_arg_strncasecmp arg flag < 0 ↔
    ¬ (arg.take flag.length).map Char.toLower = flag.map Char.toLower

/-- `is_option_next`, at an argument; what is no option is a parameter. -/
def isOption (arg : Text) : Bool := arg.head? = some '-'

/-- `CORBA_ORB_ARGUMENT_SPECIFIER`. -/
def orbArgumentSpecifier : Text := ['-', 'O', 'R', 'B']

/-- `orb_defaults`. -/
def orbDefaults : List Text :=
  ["-ORBDottedDecimalAddresses".toList, "1".toList, "-ORBObjRefStyle".toList, "IOR".toList]

/-- A `DAF::ARGV`: its list, and what has been added, each with quotes, to the `ACE_ARGV` that it keeps. -/
structure Argv where
  substituteEnvArgs : Bool
  argsList : List Text
  args : List Text
  deriving DecidableEq, Repr

namespace Argv

/-- One that is made without arguments. -/
def made (substituteEnvArgs : Bool) : Argv := ⟨substituteEnvArgs, [], []⟩

/-- The loop of `push_argv`: what comes to the end of the list is added to the `ACE_ARGV`. -/
def pushArgv : List Text → Argv → Argv
  | [], list => list
  | arg :: argv, list =>
    let back := trimString arg ' '
    pushArgv argv { list with argsList := list.argsList ++ [back], args := list.args ++ [back] }

variable (host : Host)

/-- `ARGV::add` with quotes. -/
def add (args : List Text) (list : Argv) : Argv := list.pushArgv (host.added list.substituteEnvArgs args)

/-- `argc()`, `argv()` and `operator []`, which are those of the `ACE_ARGV`. -/
def argv (list : Argv) : List Text := host.added list.substituteEnvArgs list.args

end Argv

section Model

variable (host : Host) (shifter : ArgShifter)

/-- The two loops over extension or user arguments; `parameters` says that the inner one is running, which takes the
parameters of an option that is not the ORB's. -/
def splitLoop : Bool → List Text → Argv × Argv → Argv × Argv
  | _, [], lists => lists
  | parameters, arg :: rest, (orb_args, svc_args) =>
    if parameters ∧ ¬ isOption arg then splitLoop true rest (orb_args, svc_args.add host [arg])
    else if isOption arg ∧ 0 > shifter.cur_arg_strncasecmp arg orbArgumentSpecifier then
      splitLoop true rest (orb_args, svc_args.add host [arg])
    else splitLoop false rest (orb_args.add host [arg], svc_args)

/-- The leading parameters. -/
def leadingLoop : List Text → Argv × Argv → List Text × Argv × Argv
  | [], lists => ([], lists)
  | arg :: rest, (orb_args, svc_args) =>
    if isOption arg then (arg :: rest, orb_args, svc_args)
    else leadingLoop rest (orb_args.add host [arg], svc_args.add host [arg])

/-- `ORB::init` up to `ORB_init`: `orb_args` and `svc_args`, from the arguments and the arguments of the extensions. -/
def init (argv : List Text) (ext_params : Text) : Argv × Argv :=
  let (rest, orb_args, svc_args) := leadingLoop host argv (.made true, .made false)
  let orb_args := orb_args.add host orbDefaults
  let lists := if ext_params ≠ [] then splitLoop host shifter false (host.argv false ext_params) (orb_args, svc_args)
    else (orb_args, svc_args)
  splitLoop host shifter false rest lists

end Model

/-! ## Which argument belongs to which option -/

/-- Every argument with the option that it belongs to: itself, or the one before it. -/
def owned : Option Text → List Text → List (Text × Option Text)
  | _, [] => []
  | before, arg :: rest =>
    if isOption arg then (arg, some arg) :: owned (some arg) rest else (arg, before) :: owned before rest

/-- The ORB's options, and no option at all. -/
def forORB : Option Text → Bool
  | none => true
  | some o => (o.take orbArgumentSpecifier.length).map Char.toLower = orbArgumentSpecifier.map Char.toLower

/-- The arguments that belong to the ORB's options, and those that belong to others. -/
def orbPart (before : Option Text) (args : List Text) : List Text :=
  ((owned before args).filter fun x => forORB x.2).map Prod.fst

def svcPart (before : Option Text) (args : List Text) : List Text :=
  ((owned before args).filter fun x => !forORB x.2).map Prod.fst

theorem map_fst_owned (before : Option Text) (args : List Text) : (owned before args).map Prod.fst = args := by
  induction args generalizing before with
  | nil => rfl
  | cons arg rest ih =>
    rw [owned]
    split_ifs
    · rw [List.map_cons, ih]
    · rw [List.map_cons, ih]

/-- Every argument is in one of the two parts, and in order there. -/
theorem parts_perm (before : Option Text) (args : List Text) :
    (orbPart before args ++ svcPart before args).Perm args ∧ (orbPart before args).Sublist args ∧
      (svcPart before args).Sublist args := by
  have hall := map_fst_owned before args
  refine ⟨?_, ?_, ?_⟩
  · have hperm := (List.filter_append_perm (fun x => forORB x.2) (owned before args)).map Prod.fst
    rwa [List.map_append, hall] at hperm
  · have hsub := (List.filter_sublist (p := fun x => forORB x.2) (l := owned before args)).map Prod.fst
    rwa [hall] at hsub
  · have hsub := (List.filter_sublist (p := fun x => !forORB x.2) (l := owned before args)).map Prod.fst
    rwa [hall] at hsub

/-! ## The vectors -/

variable {host : Host} {shifter : ArgShifter}

namespace Argv

/-- A vector with more at its end. -/
def append (list : Argv) (texts : List Text) : Argv :=
  { list with argsList := list.argsList ++ texts, args := list.args ++ texts }

@[simp] theorem append_substituteEnvArgs (list : Argv) (texts : List Text) :
    (list.append texts).substituteEnvArgs = list.substituteEnvArgs := rfl

@[simp] theorem append_args (list : Argv) (texts : List Text) : (list.append texts).args = list.args ++ texts := rfl

@[simp] theorem append_nil (list : Argv) : list.append [] = list := by simp [append]

@[simp] theorem append_append (list : Argv) (texts texts' : List Text) :
    (list.append texts).append texts' = list.append (texts ++ texts') := by simp [append]

/-- What is pushed comes to the end, trimmed. -/
theorem pushArgv_eq (argv : List Text) (list : Argv) : list.pushArgv argv = list.append (argv.map (trimString · ' ')) := by
  induction argv generalizing list with
  | nil => rw [pushArgv, List.map_nil, append_nil]
  | cons arg argv ih =>
    rw [pushArgv, ih, List.map_cons]
    exact list.append_append [trimString arg ' '] _

end Argv

/-- What comes to a vector of arguments that are added one after the other. -/
def addEach (host : Host) (substituteEnvArgs : Bool) (args : List Text) : List Text :=
  args.flatMap fun arg => (host.added substituteEnvArgs [arg]).map (trimString · ' ')

theorem add_eq (args : List Text) (list : Argv) :
    list.add host args = list.append ((host.added list.substituteEnvArgs args).map (trimString · ' ')) :=
  list.pushArgv_eq _

theorem add_addEach (arg : Text) (args : List Text) (list : Argv) :
    (list.add host [arg]).append (addEach host list.substituteEnvArgs args) =
      list.append (addEach host list.substituteEnvArgs (arg :: args)) := by
  rw [add_eq, Argv.append_append, addEach, addEach, List.flatMap_cons]

@[simp] theorem add_substituteEnvArgs (args : List Text) (list : Argv) :
    (list.add host args).substituteEnvArgs = list.substituteEnvArgs := by
  rw [add_eq, Argv.append_substituteEnvArgs]

/-- An argument that an `ACE_ARGV` gives back as it is is only trimmed. -/
theorem addEach_of_kept {substituteEnvArgs : Bool} {args : List Text}
    (h : ∀ arg ∈ args, host.added substituteEnvArgs [arg] = [arg]) :
    addEach host substituteEnvArgs args = args.map (trimString · ' ') := by
  induction args with
  | nil => rfl
  | cons arg args ih =>
    rw [addEach, List.flatMap_cons, h arg List.mem_cons_self, List.map_cons]
    exact congrArg _ (ih fun b hb => h b (List.mem_cons_of_mem arg hb))

/-! ## The loops -/

variable (host shifter) in
/-- The inner loop is left with the option that it was entered for. -/
theorem splitLoop_eq (before : Option Text) (args : List Text) (orb_args svc_args : Argv) :
    splitLoop host shifter (!forORB before) args (orb_args, svc_args) =
      (orb_args.append (addEach host orb_args.substituteEnvArgs (orbPart before args)),
        svc_args.append (addEach host svc_args.substituteEnvArgs (svcPart before args))) := by
  induction args generalizing before orb_args svc_args with
  | nil => simp [splitLoop, orbPart, svcPart, owned, addEach]
  | cons arg rest ih =>
    have hnext : ∀ option, owned before (arg :: rest) = (arg, option) :: owned option rest →
        splitLoop host shifter (!forORB before) (arg :: rest) (orb_args, svc_args) =
          (if forORB option then splitLoop host shifter false rest (orb_args.add host [arg], svc_args)
            else splitLoop host shifter true rest (orb_args, svc_args.add host [arg])) →
        splitLoop host shifter (!forORB before) (arg :: rest) (orb_args, svc_args) =
          (orb_args.append (addEach host orb_args.substituteEnvArgs (orbPart before (arg :: rest))),
            svc_args.append (addEach host svc_args.substituteEnvArgs (svcPart before (arg :: rest)))) := by
      intro option howned hstep
      have hloop := ih option
      rw [hstep, orbPart, svcPart, howned]
      cases hfor : forORB option with
      | true =>
        rw [hfor, Bool.not_true] at hloop
        rw [if_pos rfl, hloop, add_substituteEnvArgs, add_addEach]
        simp only [List.filter_cons, hfor, Bool.not_true, if_true, Bool.false_eq_true, if_false, List.map_cons]
        rfl
      | false =>
        rw [hfor, Bool.not_false] at hloop
        rw [if_neg (by simp), hloop, add_substituteEnvArgs, add_addEach]
        simp only [List.filter_cons, hfor, Bool.not_false, if_true, Bool.false_eq_true, if_false, List.map_cons]
        rfl
    by_cases hoption : isOption arg = true
    · refine hnext (some arg) (by rw [owned, if_pos hoption]) ?_
      rw [splitLoop, if_neg (by simp [hoption])]
      have hneg := shifter.cur_arg_strncasecmp_neg arg orbArgumentSpecifier
      by_cases horb : forORB (some arg) = true
      · rw [if_pos horb, if_neg fun h => hneg.mp h.2 (by simpa [forORB] using horb)]
      · rw [if_neg horb, if_pos ⟨hoption, hneg.mpr (by simpa [forORB] using horb)⟩]
    · refine hnext before (by rw [owned, if_neg hoption]) ?_
      rw [splitLoop]
      cases hfor : forORB before with
      | true => rw [if_neg (by simp), if_neg (by simp [hoption]), if_pos rfl]
      | false => rw [if_pos (by simp [hoption]), if_neg (by simp)]

theorem leadingLoop_eq (argv : List Text) (orb_args svc_args : Argv) :
    leadingLoop host argv (orb_args, svc_args) = (argv.dropWhile (!isOption ·),
      orb_args.append (addEach host orb_args.substituteEnvArgs (argv.takeWhile (!isOption ·))),
      svc_args.append (addEach host svc_args.substituteEnvArgs (argv.takeWhile (!isOption ·)))) := by
  induction argv generalizing orb_args svc_args with
  | nil => simp [leadingLoop, addEach]
  | cons arg rest ih =>
    rw [leadingLoop]
    by_cases hoption : isOption arg = true
    · rw [if_pos hoption, List.takeWhile_cons_of_neg (by simp [hoption]), List.dropWhile_cons_of_neg (by simp [hoption])]
      simp [addEach]
    · rw [if_neg hoption, ih, add_substituteEnvArgs, add_substituteEnvArgs, add_addEach, add_addEach,
        List.takeWhile_cons_of_pos (by simp [hoption]), List.dropWhile_cons_of_pos (by simp [hoption])]

/-- What comes to the two vectors. -/
theorem init_args (host : Host) (shifter : ArgShifter) (argv : List Text) (ext_params : Text) :
    let leading := argv.takeWhile (!isOption ·)
    let user := argv.dropWhile (!isOption ·)
    let ext := if ext_params ≠ [] then host.argv false ext_params else []
    init host shifter argv ext_params =
      ((Argv.made true).append (addEach host true leading ++ (host.added true orbDefaults).map (trimString · ' ') ++
          addEach host true (orbPart none ext) ++ addEach host true (orbPart none user)),
        (Argv.made false).append
          (addEach host false leading ++ addEach host false (svcPart none ext) ++
            addEach host false (svcPart none user))) := by
  dsimp only
  have hsplit := splitLoop_eq host shifter none
  have hfirst : (!forORB none) = false := rfl
  rw [hfirst] at hsplit
  unfold init
  rw [leadingLoop_eq]
  dsimp only
  by_cases hext : ext_params ≠ []
  · rw [if_pos hext, if_pos hext, hsplit, hsplit]
    simp [add_eq, Argv.made]
  · rw [if_neg hext, if_neg hext, hsplit]
    simp [add_eq, Argv.made, addEach, orbPart, svcPart, owned]

theorem made_append_argv (substituteEnvArgs : Bool) (texts : List Text) :
    ((Argv.made substituteEnvArgs).append texts).argv host = host.added substituteEnvArgs texts := by
  rw [Argv.argv, Argv.append_substituteEnvArgs, Argv.append_args]
  rfl

/-- **The split.**  The leading parameters go to both vectors, and the others, in order, to one of them, by the option that
they belong to; in `orb_args` the defaults come first, and then the arguments of the extensions.  What goes to a vector is
what an `ACE_ARGV` makes of the argument, trimmed, and the vector has what an `ACE_ARGV` makes of all that it was given:
the arguments, and no more than trimmed, where an `ACE_ARGV` gives back what is added to it. -/
theorem init_splits (host : Host) (shifter : ArgShifter) (argv : List Text) (ext_params : Text) :
    let leading := argv.takeWhile (!isOption ·)
    let user := argv.dropWhile (!isOption ·)
    let ext := if ext_params ≠ [] then host.argv false ext_params else []
    let orb := leading ++ orbDefaults ++ orbPart none ext ++ orbPart none user
    let svc := leading ++ svcPart none ext ++ svcPart none user
    ((init host shifter argv ext_params).1.argv host =
        host.added true (addEach host true leading ++ (host.added true orbDefaults).map (trimString · ' ') ++
          addEach host true (orbPart none ext) ++ addEach host true (orbPart none user)) ∧
      (init host shifter argv ext_params).2.argv host =
        host.added false (addEach host false leading ++ addEach host false (svcPart none ext) ++
          addEach host false (svcPart none user))) ∧
      (∀ args ∈ [ext, user], (orbPart none args ++ svcPart none args).Perm args ∧ (orbPart none args).Sublist args ∧
        (svcPart none args).Sublist args) ∧
      ((∀ arg ∈ orb, host.added true [arg] = [arg]) → host.added true orbDefaults = orbDefaults →
        host.added true (orb.map (trimString · ' ')) = orb.map (trimString · ' ') →
        (init host shifter argv ext_params).1.argv host = orb.map (trimString · ' ')) ∧
      ((∀ arg ∈ svc, host.added false [arg] = [arg]) →
        host.added false (svc.map (trimString · ' ')) = svc.map (trimString · ' ') →
        (init host shifter argv ext_params).2.argv host = svc.map (trimString · ' ')) := by
  have hinit := init_args host shifter argv ext_params
  dsimp only at hinit ⊢
  rw [hinit]
  refine ⟨⟨made_append_argv _ _, made_append_argv _ _⟩, fun args _ => parts_perm none args, fun hone hdefaults hall => ?_,
    fun hone hall => ?_⟩
  · obtain ⟨hothers, huser⟩ := List.forall_mem_append.mp hone
    obtain ⟨hothers, hext⟩ := List.forall_mem_append.mp hothers
    obtain ⟨hleading, -⟩ := List.forall_mem_append.mp hothers
    rw [made_append_argv, addEach_of_kept hleading, addEach_of_kept hext, addEach_of_kept huser, hdefaults,
      ← List.map_append, ← List.map_append, ← List.map_append]
    exact hall
  · obtain ⟨hothers, huser⟩ := List.forall_mem_append.mp hone
    obtain ⟨hleading, hext⟩ := List.forall_mem_append.mp hothers
    rw [made_append_argv, addEach_of_kept hleading, addEach_of_kept hext, addEach_of_kept huser, ← List.map_append,
      ← List.map_append]
    exact hall

/-- `cur_arg_strncasecmp`, by the number of characters that the argument has besides. -/
def besides : ArgShifter where
  cur_arg_strncasecmp arg flag :=
    if (arg.take flag.length).map Char.toLower = flag.map Char.toLower then (arg.length - flag.length : ℕ) else -1
  cur_arg_strncasecmp_neg arg flag := by
    split
    · next h => exact iff_of_false (by omega) (not_not.mpr h)
    · next h => exact iff_of_true (by decide) h

/-- A host with `H=/h` in its environment. -/
def envHost : Host :=
  { Host.bareHost with
    environ := [(['H'], ['/', 'h'])]
    added := fun substituteEnvArgs texts =>
      if substituteEnvArgs then texts.map fun text => if text = ['$', 'H'] then ['/', 'h'] else text else texts }

/-- `orb_args` is made with the environment: a reference to it does not stay as it is. -/
theorem init_substitutes : ¬ ∀ (host : Host) (shifter : ArgShifter) (argv : List Text) (ext_params : Text),
    let leading := argv.takeWhile (!isOption ·)
    let user := argv.dropWhile (!isOption ·)
    let ext := if ext_params ≠ [] then host.argv false ext_params else []
    (init host shifter argv ext_params).1.argv host =
        (leading ++ orbDefaults ++ orbPart none ext ++ orbPart none user).map (trimString · ' ') ∧
      (init host shifter argv ext_params).2.argv host =
        (leading ++ svcPart none ext ++ svcPart none user).map (trimString · ' ') := by
  intro h
  have hinit := h envHost besides [['p'], ['-', 'O', 'R', 'B', 'x'], ['$', 'H']] []
  revert hinit
  decide +kernel

end Lasagne.Taf.ORBArguments
