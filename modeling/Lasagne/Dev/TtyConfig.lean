import Mathlib
import Lasagne.Daf.Bitset
import Lasagne.Daf.FormatLoop
import Lasagne.Daf.ServiceGestaltLoader
import Lasagne.Taf.SecurityLoader

/-!
# Lasagne.Dev.TtyConfig — the configuration string of a serial device

`parse_config` goes over the parameters behind the first colon, by positions in an `int` that is -1 at the last one.

* `get_setParam` : what a parameter does to a flag;
* `paramLoop_eq` : the loop over positions by the list of the parameters;
* `parseConfig_near` : what a configuration comes to, with its positions in an `int`.
-/

namespace Lasagne.Dev.TtyConfig

open Lasagne.Daf Lasagne.Trans

/-! ## The model -/

/-- `ACE_TTY_IO::Serial_Params`, as far as it is set. -/
structure SerialParams where
  baudrate : ℤ
  paritymode : Text
  databits : ℤ
  stopbits : ℤ
  readtimeoutmsec : ℤ
  xinenb : Bool
  xoutenb : Bool
  xonlim : ℤ
  xofflim : ℤ
  dsrenb : Bool
  ctsenb : Bool
  dtrdisable : Bool
  rtsenb : ℤ
  modem : Bool
  deriving DecidableEq, Repr

/-- The parameters that have a branch. -/
inductive ParamName
  | baud
  | parity
  | data
  | stop
  | to
  | xon
  | xin
  | xout
  | xonlim
  | xofflim
  | odsr
  | octs
  | dtr
  | rts
  | idsr
  | modem
  deriving DecidableEq, Repr

/-- `strcasecmp(a, b) == 0`. -/
def sameText (a b : Text) : Bool := a.map Char.toLower = b.map Char.toLower

/-- The tests of the branches, in order. -/
def paramNames : List (Text × ParamName) :=
  [("baud".toList, .baud), ("parity".toList, .parity), ("data".toList, .data), ("stop".toList, .stop),
    ("to".toList, .to), ("xon".toList, .xon), ("xin".toList, .xin), ("xout".toList, .xout),
    ("xonlim".toList, .xonlim), ("xofflim".toList, .xofflim), ("odsr".toList, .odsr), ("octs".toList, .octs),
    ("dtr".toList, .dtr), ("rts".toList, .rts), ("idsr".toList, .idsr), ("modem".toList, .modem)]

def paramName (param_arg : Text) : Option ParamName :=
  (paramNames.find? fun x => sameText param_arg x.1).map Prod.snd

/-- `param_val[0] == '1' || strcasecmp(param_val, "on") == 0`. -/
def isOn (param_val : Text) : Bool := param_val.head? = some '1' || sameText param_val "on".toList

open Lasagne.Taf.Security in
/-- The branches.  Those of `odsr`, `octs`, `dtr`, `idsr` and `modem` have no `else`. -/
def setParam (p : SerialParams) (name : ParamName) (param_val : Text) : SerialParams :=
  match name with
  | .baud => { p with baudrate := if atoi param_val > 0 then aceRange 50 256000 (atoi param_val) else 9600 }
  | .parity =>
    { p with paritymode :=
        if param_val.head? = some '1' ∨ param_val = ['O'] ∨ sameText param_val "odd".toList then "odd".toList
        else if param_val.head? = some '2' ∨ param_val = ['E'] ∨ sameText param_val "even".toList then "even".toList
        else "none".toList }
  | .data => { p with databits := if 4 ≤ atoi param_val ∧ atoi param_val ≤ 8 then atoi param_val else 8 }
  | .stop => { p with stopbits := if atoi param_val = 1 ∨ atoi param_val = 2 then atoi param_val else 1 }
  | .to => { p with readtimeoutmsec := if atoi param_val > 0 then atoi param_val else 10000 }
  | .xon =>
    if isOn param_val then { p with xinenb := true, xoutenb := true } else { p with xinenb := false, xoutenb := false }
  | .xin => if isOn param_val then { p with xinenb := true } else { p with xinenb := false }
  | .xout => if isOn param_val then { p with xoutenb := true } else { p with xoutenb := false }
  | .xonlim => { p with xonlim := if atoi param_val > 0 then atoi param_val else 0 }
  | .xofflim => { p with xofflim := if atoi param_val > 0 then atoi param_val else 0 }
  | .odsr =>
    let p := if isOn param_val then { p with dsrenb := true } else p
    { p with dsrenb := false }
  | .octs =>
    let p := if isOn param_val then { p with ctsenb := true } else p
    { p with ctsenb := false }
  | .dtr =>
    let p := if isOn param_val then { p with dtrdisable := true } else p
    { p with dtrdisable := false }
  | .rts =>
    { p with rtsenb :=
        if isOn param_val then 1
        else if param_val.head? = some '2' ∨ sameText param_val "hs".toList then 2
        else if param_val.head? = some '3' ∨ sameText param_val "tg".toList then 3
        else 0 }
  | .idsr =>
    let p := if isOn param_val then { p with dsrenb := true } else p
    { p with dsrenb := false }
  | .modem =>
    let p := if isOn param_val then { p with modem := true } else p
    { p with modem := false }

/-- `tty_config.substr(pos, n)`: an `n` below 0 is past every end. -/
def substrAt (tty_config : Text) (pos n : ℤ) : Option Text := (substrFrom tty_config pos).map (substrTo · n)

/-- A parameter, trimmed: its name and its value, if it has them. -/
def readParam (param : Text) : Option (Option (Text × Text)) :=
  let eq_pos := findFirstOf param '='
  if 0 ≥ eq_pos then some none
  else
    (substrFrom param (incr eq_pos)).map fun rest =>
      let param_arg := trimString (substrTo param eq_pos) ' '
      let param_val := trimString rest ' '
      if param_arg = [] ∨ param_val = [] then none else some (param_arg, param_val)

/-- The loop at `pos`, once: the parameters and `pos` at the end of it, or none if `std::out_of_range` is thrown. -/
def paramBody (tty_config : Text) (pos : ℤ) (p : SerialParams) : Option (SerialParams × ℤ) :=
  let e_pos := if 0 ≤ pos then intFind tty_config ',' pos.toNat else -1
  match substrAt tty_config pos (e_pos - pos) with
  | none => none
  | some param =>
    match readParam (trimString param ' ') with
    | none => none
    | some none => some (p, e_pos)
    | some (some (param_arg, param_val)) =>
      match paramName param_arg with
      | some name => some (setParam p name param_val, e_pos)
      -- the warning, with `pos` and `e_pos` as they are now: where the parameter ends, and how long it is
      | none => (substrAt tty_config e_pos (e_pos - pos - e_pos)).map fun _ => (p, e_pos)

/-- The loop, with whether it ends by throwing. -/
def paramLoop (tty_config : Text) : ℕ → ℤ → SerialParams → Option (SerialParams × Bool)
  | 0, _, _ => none
  | fuel + 1, pos, p =>
    match paramBody tty_config pos p with
    | none => some (p, true)
    | some (p, pos) => if pos > 0 then paramLoop tty_config fuel (incr pos) p else some (p, false)

/-- What a device has of its configuration. -/
structure Configured where
  tty_device_config : Text
  tty_device_name : Text
  tty_params : SerialParams
  deriving DecidableEq, Repr

inductive Exit
  | returned (code : ℤ)
  | outOfRange
  deriving DecidableEq, Repr

/-- `TTY_Device::parse_config`. -/
def parseConfig (fuel : ℕ) (d : Configured) (config_arg : Text) : Option (Configured × Exit) :=
  let tty_config := trimString config_arg '"'
  let d := { d with tty_device_config := tty_config }
  let pos := findFirstOf tty_config ':'
  if 0 > pos then
    if tty_config ≠ [] then some ({ d with tty_device_name := trimString tty_config '\\' }, .returned 0)
    else some (d, .returned (-1))
  else
    let d := { d with tty_device_name := trimString (substrTo tty_config pos) '\\' }
    (paramLoop tty_config fuel (incr pos) d.tty_params).map fun (p, threw) =>
      ({ d with tty_params := p }, if threw then .outOfRange else .returned 0)

/-! ## One parameter -/

/-- The name and the value of a parameter. -/
def entry (param : Text) : Option (Text × Text) :=
  let param := trimString param ' '
  let arg := trimString (param.takeWhile (· ≠ '=')) ' '
  let val := trimString (param.dropWhile (· ≠ '=')).tail ' '
  if '=' ∈ param then if arg = [] ∨ val = [] then none else some (arg, val) else none

/-- A parameter with a name that has no branch. -/
def isUnknown (param : Text) : Bool :=
  match entry param with
  | some (arg, _) => (paramName arg).isNone
  | none => false

/-- What a parameter does. -/
def apply (p : SerialParams) (param : Text) : SerialParams :=
  match entry param with
  | some (arg, val) =>
    match paramName arg with
    | some name => setParam p name val
    | none => p
  | none => p

theorem apply_of_unknown {param : Text} (h : isUnknown param = true) (p : SerialParams) : apply p param = p := by
  unfold isUnknown at h
  unfold apply
  cases hentry : entry param with
  | none => rfl
  | some e =>
    obtain ⟨arg, val⟩ := e
    rw [hentry] at h
    dsimp only at h ⊢
    rw [Option.isNone_iff_eq_none.mp h]

/-- The position of the `=`, if any, fits an `int`, and so does the one behind it. -/
def NearEq (param : Text) : Prop := '=' ∈ trimString param ' ' → (trimString param ' ').idxOf '=' + 1 < 2 ^ 31

theorem readParam_eq {param : Text} (h : NearEq param) : readParam (trimString param ' ') = some (entry param) := by
  unfold NearEq at h
  unfold readParam entry
  generalize trimString param ' ' = t at *
  dsimp only
  by_cases hmem : '=' ∈ t
  · have hnear := h hmem
    obtain ⟨x, y, hx, rfl⟩ := around hmem
    rw [idxOf_append_cons hx] at hnear
    obtain ⟨htake, hdrop⟩ := takeWhile_append_cons hx y
    rw [findFirstOf_append hx, toInt_eq_iff.mpr (by omega), if_pos hmem, htake, hdrop]
    cases x with
    | nil => rfl
    | cons a x =>
      have hpos : 0 < (a :: x).length := Nat.succ_pos _
      rw [if_neg (by omega), incr_of_lt hnear, substrFrom_cons, substrTo_append]
      rfl
  · rw [findFirstOf_of_notMem hmem, if_neg hmem]
    rfl

/-! ## The loop -/

/-- The loop once, with the rest of the text being a parameter and what is behind its comma. -/
theorem paramBody_comma {done x y : Text} (hx : ',' ∉ x) (hnear : NearEq x) (hpos : done.length + x.length < 2 ^ 31)
    (p : SerialParams) :
    paramBody (done ++ (x ++ ',' :: y)) done.length p = some (apply p x, ((done.length + x.length : ℕ) : ℤ)) := by
  have hfind : intFind (done ++ (x ++ ',' :: y)) ',' done.length = (done.length + x.length : ℕ) := by
    unfold intFind
    rw [List.drop_left, if_pos (by simp), idxOf_append_cons hx, toInt_eq_iff.mpr hpos]
  have hat : ∀ n : ℤ, substrAt (done ++ (x ++ ',' :: y)) done.length n = some (substrTo (x ++ ',' :: y) n) := by
    intro n
    rw [substrAt, substrFrom_append]
    rfl
  have hparam : substrTo (x ++ ',' :: y) (((done.length + x.length : ℕ) : ℤ) - done.length) = x := by
    have hsub : ((done.length + x.length : ℕ) : ℤ) - done.length = x.length := by omega
    rw [hsub, substrTo_append]
  have hwarning : ∀ n : ℤ, (substrAt (done ++ (x ++ ',' :: y)) (done.length + x.length : ℕ) n).isSome := by
    intro n
    rw [substrAt, ← List.append_assoc, ← List.length_append, substrFrom_append]
    rfl
  unfold paramBody apply
  dsimp only
  rw [if_pos (by omega), Int.toNat_natCast, hfind, hat, hparam]
  dsimp only
  rw [readParam_eq hnear]
  cases entry x with
  | none => rfl
  | some e =>
    obtain ⟨arg, val⟩ := e
    dsimp only
    cases paramName arg with
    | some name => rfl
    | none =>
      obtain ⟨text, htext⟩ := Option.isSome_iff_exists.mp (hwarning _)
      dsimp only
      rw [htext]
      rfl

/-- And with the rest being the last parameter: the warning for it throws. -/
theorem paramBody_last {done x : Text} (hx : ',' ∉ x) (hnear : NearEq x) (p : SerialParams) :
    paramBody (done ++ x) done.length p = if isUnknown x then none else some (apply p x, -1) := by
  have hfind : intFind (done ++ x) ',' done.length = -1 := by
    unfold intFind
    rw [List.drop_left, if_neg hx]
  have hparam : substrAt (done ++ x) done.length (-1 - done.length) = some x := by
    rw [substrAt, substrFrom_append, Option.map_some, substrTo, if_neg (by omega)]
  unfold paramBody apply isUnknown
  dsimp only
  rw [if_pos (by omega), Int.toNat_natCast, hfind, hparam]
  dsimp only
  rw [readParam_eq hnear]
  cases entry x with
  | none => rfl
  | some e =>
    obtain ⟨arg, val⟩ := e
    have hwarning : substrAt (done ++ x) (-1) (-1 - done.length - -1) = none := by
      rw [substrAt, substrFrom, if_neg (by omega)]
      rfl
    rcases Option.eq_none_or_eq_some (paramName arg) with hname | ⟨name, hname⟩
    · simp only [hname, hwarning]
      rfl
    · simp only [hname]
      rfl

/-- A part has no separator in it. -/
theorem of_mem_splitOn {c : Char} {s part : Text} (h : part ∈ s.splitOn c) : c ∉ part ∧ part.length ≤ s.length := by
  by_cases hmem : c ∈ s
  · obtain ⟨x, y, hx, rfl⟩ := around hmem
    have hlt : y.length < (x ++ c :: y).length := by
      simp only [List.length_append, List.length_cons]
      omega
    rw [List.splitOn_append_cons_self_of_not_mem hx] at h
    rcases List.mem_cons.mp h with rfl | h
    · exact ⟨hx, by simp⟩
    · obtain ⟨hpart, hle⟩ := of_mem_splitOn h
      exact ⟨hpart, hle.trans hlt.le⟩
  · rw [List.splitOn_eq_singleton hmem, List.mem_singleton] at h
    rw [h]
    exact ⟨hmem, le_rfl⟩
termination_by s.length

/-- What is before the last part begins before it does. -/
theorem length_lt_of_last {c : Char} {x y : Text} {n : ℕ}
    (h : ∀ last ∈ (y.splitOn c).getLast?, (x ++ y).length < n + last.length) : x.length < n := by
  have hne := List.splitOn_ne_nil c y
  have hlen := h _ (List.getLast?_eq_some_getLast hne)
  obtain ⟨-, hle⟩ := of_mem_splitOn (List.getLast_mem hne)
  rw [List.length_append] at hlen
  omega

/-- The loop from a position behind the first character: the parameters that are left do what they do, one by one, and it
throws if the last of them is unknown. -/
theorem paramLoop_eq {done rest : Text} {fuel : ℕ} {p : SerialParams} (hdone : 0 < done.length)
    (hfuel : rest.length < fuel)
    (hlast : ∀ last ∈ (rest.splitOn ',').getLast?, (done ++ rest).length < 2 ^ 31 + last.length)
    (heq : ∀ param ∈ rest.splitOn ',', NearEq param) :
    paramLoop (done ++ rest) fuel done.length p =
      some ((rest.splitOn ',').foldl apply p, ((rest.splitOn ',').getLast?.map isUnknown).getD false) := by
  induction fuel generalizing done rest p with
  | zero => omega
  | succ fuel ih =>
    unfold paramLoop
    by_cases hmem : ',' ∈ rest
    · obtain ⟨x, y, hx, rfl⟩ := around hmem
      have hne := List.splitOn_ne_nil ',' y
      have hsplit : (x ++ ',' :: y).splitOn ',' = x :: y.splitOn ',' := List.splitOn_append_cons_self_of_not_mem hx y
      rw [hsplit] at heq hlast ⊢
      rw [List.getLast?_cons_of_ne_nil hne] at hlast ⊢
      have hnext : done ++ (x ++ ',' :: y) = done ++ x ++ [','] ++ y := by simp
      have hlength : (done ++ x ++ [',']).length = done.length + x.length + 1 := by
        rw [List.length_append, List.length_append, List.length_singleton]
      rw [hnext] at hlast
      have hpos := hlength ▸ length_lt_of_last hlast
      rw [paramBody_comma hx (heq x List.mem_cons_self) (by omega)]
      dsimp only
      have hgt : ((done.length + x.length : ℕ) : ℤ) > 0 := by omega
      rw [if_pos hgt, incr_of_lt hpos, hnext, ← hlength, ih (by simp) ?_ hlast
        fun param hparam => heq param (List.mem_cons_of_mem _ hparam), List.foldl_cons]
      simp only [List.length_append, List.length_cons] at hfuel
      omega
    · have hsplit : rest.splitOn ',' = [rest] := List.splitOn_eq_singleton hmem
      rw [hsplit] at heq ⊢
      rw [paramBody_last hmem (heq rest List.mem_cons_self)]
      cases hunknown : isUnknown rest with
      | true => simp [hunknown, apply_of_unknown hunknown]
      | false => simp [hunknown]

/-! ## A configuration -/

/-- The parameters of a configuration that is trimmed. -/
def paramsOf (s : Text) : List Text := if ':' ∈ s then (s.dropWhile (· ≠ ':')).tail.splitOn ',' else []

/-- The last parameter begins at a position that fits an `int`, and so do the values within the parameters. -/
structure Near (s : Text) : Prop where
  last : ∀ last ∈ (paramsOf s).getLast?, s.length < 2 ^ 31 + last.length
  value : ∀ param ∈ paramsOf s, NearEq param

def endsUnknown (s : Text) : Bool := ((paramsOf s).getLast?.map isUnknown).getD false

/-- What a device is left with. -/
def configured (d : Configured) (s : Text) : Configured where
  tty_device_config := s
  tty_device_name := if s = [] then d.tty_device_name else trimString (s.takeWhile (· ≠ ':')) '\\'
  tty_params := (paramsOf s).foldl apply d.tty_params

def exitOf (s : Text) : Exit :=
  if s = [] then .returned (-1) else if endsUnknown s then .outOfRange else .returned 0

/-- `parse_config` ends, and like that. -/
def Parses (d : Configured) (config_arg : Text) (r : Configured × Exit) : Prop :=
  ∃ fuel, parseConfig fuel d config_arg = some r

theorem paramsOf_append_cons {x : Text} (hx : ':' ∉ x) (y : Text) : paramsOf (x ++ ':' :: y) = y.splitOn ',' := by
  obtain ⟨-, hdrop⟩ := takeWhile_append_cons hx y
  rw [paramsOf, if_pos (by simp), hdrop]

theorem near_of_length_lt {s : Text} (h : s.length < 2 ^ 31) : Near s := by
  refine ⟨fun last _ => Nat.lt_add_right _ h, fun param hparam hmem => ?_⟩
  have hle : param.length ≤ s.length := by
    unfold paramsOf at hparam
    split_ifs at hparam
    · obtain ⟨-, htail⟩ := of_mem_splitOn hparam
      have hdrop := (List.dropWhile_sublist (· ≠ ':') (l := s)).length_le
      rw [List.length_tail] at htail
      omega
    · cases hparam
  have hidx := List.idxOf_lt_length_iff.mpr hmem
  have htrim := length_trimString_le param ' '
  omega

theorem near_trimString {config_arg : Text} (h : config_arg.length < 2 ^ 31) : Near (trimString config_arg '"') :=
  near_of_length_lt ((length_trimString_le config_arg '"').trans_lt h)

theorem parseConfig_near {config_arg : Text} (h : Near (trimString config_arg '"')) (d : Configured) :
    Parses d config_arg (configured d (trimString config_arg '"'), exitOf (trimString config_arg '"')) := by
  obtain ⟨hlast, hvalue⟩ := h
  refine ⟨(trimString config_arg '"').length + 1, ?_⟩
  unfold parseConfig configured exitOf endsUnknown
  generalize trimString config_arg '"' = s at *
  dsimp only
  by_cases hmem : ':' ∈ s
  · obtain ⟨x, y, hx, rfl⟩ := around hmem
    rw [paramsOf_append_cons hx] at hlast hvalue ⊢
    have hsplit : x ++ ':' :: y = x ++ [':'] ++ y := by simp
    have hlength : (x ++ [':']).length = x.length + 1 := by simp
    rw [hsplit] at hlast
    have hpos := hlength ▸ length_lt_of_last hlast
    obtain ⟨htake, -⟩ := takeWhile_append_cons hx y
    have hne : x ++ ':' :: y ≠ [] := by simp
    have hloop : paramLoop (x ++ [':'] ++ y) ((x ++ ':' :: y).length + 1) (x ++ [':']).length d.tty_params = _ :=
      paramLoop_eq (by simp) (by simp; omega) hlast hvalue
    rw [← hsplit, hlength] at hloop
    rw [findFirstOf_append hx, toInt_eq_iff.mpr (by omega), if_neg (by omega), substrTo_append, incr_of_lt hpos, hloop,
      htake, if_neg hne, if_neg hne]
    rfl
  · have htake : s.takeWhile (· ≠ ':') = s := List.takeWhile_eq_self_iff.mpr fun a ha => by
      simpa using fun heq : a = ':' => hmem (heq ▸ ha)
    have hparams : paramsOf s = [] := if_neg hmem
    rw [findFirstOf_of_notMem hmem, if_pos (by decide), htake, hparams]
    cases s with
    | nil => rfl
    | cons a s => rfl

theorem steady_paramLoop (tty_config : Text) {pos : ℤ} {p : SerialParams} :
    Steady fun fuel => paramLoop tty_config fuel pos p := by
  refine Steady.of_succ fun fuel r => ?_
  induction fuel generalizing pos p with
  | zero =>
    intro h
    cases h
  | succ fuel ih =>
    intro h
    rw [paramLoop] at h ⊢
    cases hbody : paramBody tty_config pos p with
    | none =>
      rw [hbody] at h
      exact h
    | some next =>
      obtain ⟨p, pos⟩ := next
      rw [hbody] at h
      dsimp only at h ⊢
      split_ifs at h ⊢
      · exact ih h
      · exact h

theorem Parses.unique {d : Configured} {config_arg : Text} {r r' : Configured × Exit} (h : Parses d config_arg r)
    (h' : Parses d config_arg r') : r = r' := by
  obtain ⟨fuel, h⟩ := h
  obtain ⟨fuel', h'⟩ := h'
  have hsteady : Steady fun fuel => parseConfig fuel d config_arg := by
    refine Steady.of_succ fun fuel r hr => ?_
    unfold parseConfig at hr ⊢
    dsimp only at hr ⊢
    split_ifs at hr ⊢
    · exact hr
    · exact hr
    · obtain ⟨loop, hloop, rfl⟩ := Option.map_eq_some_iff.mp hr
      exact Option.map_eq_some_iff.mpr ⟨loop, steady_paramLoop _ fuel _ (Nat.le_succ fuel) loop hloop, rfl⟩
  exact hsteady.unique h h'

/-! ## Flags -/

/-- The fields that are set on or off. -/
inductive Flag
  | dsrenb
  | ctsenb
  | dtrdisable
  | modem
  | xinenb
  | xoutenb
  deriving DecidableEq, Repr

namespace Flag

def get (p : SerialParams) : Flag → Bool
  | dsrenb => p.dsrenb
  | ctsenb => p.ctsenb
  | dtrdisable => p.dtrdisable
  | modem => p.modem
  | xinenb => p.xinenb
  | xoutenb => p.xoutenb

/-- Whether a parameter is for the flag: `odsr` and `idsr` are for the same one, and `xon` is for two. -/
def isFor : Flag → ParamName → Bool
  | dsrenb, .odsr => true
  | dsrenb, .idsr => true
  | ctsenb, .octs => true
  | dtrdisable, .dtr => true
  | modem, .modem => true
  | xinenb, .xin => true
  | xinenb, .xon => true
  | xoutenb, .xout => true
  | xoutenb, .xon => true
  | _, _ => false

/-- The flags that are set off behind the `if`, and not in an `else`. -/
def lacksElse : Flag → Bool
  | xinenb => false
  | xoutenb => false
  | _ => true

/-- The value that a parameter has for the flag. -/
def valueIn (f : Flag) (param : Text) : Option Text :=
  match entry param with
  | some (arg, val) => if (paramName arg).any f.isFor then some val else none
  | none => none

/-- The value in the last parameter that has one for the flag. -/
def lastValue (f : Flag) (s : Text) : Option Text := ((paramsOf s).filterMap f.valueIn).getLast?

theorem get_setParam (f : Flag) (p : SerialParams) (name : ParamName) (val : Text) :
    f.get (setParam p name val) = if f.isFor name then !f.lacksElse && isOn val else f.get p := by
  cases name <;> cases f <;> simp only [setParam, isFor, lacksElse] <;> cases isOn val <;> rfl

theorem get_apply (f : Flag) (p : SerialParams) (param : Text) :
    f.get (apply p param) = ((f.valueIn param).map fun val => !f.lacksElse && isOn val).getD (f.get p) := by
  unfold apply valueIn
  cases entry param with
  | none => rfl
  | some e =>
    obtain ⟨arg, val⟩ := e
    dsimp only
    cases paramName arg with
    | none => rfl
    | some name =>
      rw [Option.any_some]
      dsimp only
      rw [get_setParam]
      split_ifs <;> rfl

/-- Only the last value for a flag is left. -/
theorem get_foldl_apply (f : Flag) (p : SerialParams) (params : List Text) :
    f.get (params.foldl apply p) =
      ((params.filterMap f.valueIn).getLast?.map fun val => !f.lacksElse && isOn val).getD (f.get p) := by
  induction params using List.reverseRecOn with
  | nil => rfl
  | append_singleton params param ih =>
    rw [List.foldl_append, List.foldl_cons, List.foldl_nil, get_apply, ih, List.filterMap_append]
    cases hvalue : f.valueIn param with
    | none => simp [hvalue]
    | some val => simp [hvalue]

end Flag

/-- A device before its first configuration. -/
def fresh : Configured where
  tty_device_config := []
  tty_device_name := []
  tty_params :=
    { baudrate := 9600, paritymode := "none".toList, databits := 8, stopbits := 1, readtimeoutmsec := 10000,
      xinenb := false, xoutenb := false, xonlim := 0, xofflim := 0, dsrenb := false, ctsenb := false,
      dtrdisable := false, rtsenb := 0, modem := false }

/-- **Flags.**  A configuration with its parameters at positions that fit an `int` is gone through to its end, and a flag
that is set in it is on exactly if its last value is, unless the flag is one without `else` and that value is on. -/
theorem parseConfig_flag {config_arg : Text} (h : Near (trimString config_arg '"')) (d : Configured) (f : Flag) :
    ∃ r, (∀ r', Parses d config_arg r' ↔ r' = r) ∧
      ((∀ val, f.lastValue (trimString config_arg '"') = some val → f.get r.1.tty_params = isOn val) ↔
        ∀ val, f.lastValue (trimString config_arg '"') = some val → f.lacksElse = true → isOn val = false) := by
  have hparses := parseConfig_near h d
  refine ⟨_, fun r' => ⟨fun h' => h'.unique hparses, fun heq => heq ▸ hparses⟩, ?_⟩
  have hget : f.get (configured d (trimString config_arg '"')).tty_params = _ := f.get_foldl_apply d.tty_params _
  refine forall₂_congr fun val hval => ?_
  have hlast : ((paramsOf (trimString config_arg '"')).filterMap f.valueIn).getLast? = some val := hval
  rw [hget, hlast, Option.map_some, Option.getD_some]
  cases f.lacksElse <;> cases isOn val <;> simp

theorem parseConfig_flag_xon :
    ∃ r, (∀ r', Parses fresh "C:odsr=1,XON=On".toList r' ↔ r' = r) ∧ Flag.xinenb.get r.1.tty_params = true := by
  have hnear : Near (trimString "C:odsr=1,XON=On".toList '"') := near_trimString (by simp)
  have hlast : Flag.xinenb.lastValue (trimString "C:odsr=1,XON=On".toList '"') = some "On".toList := by decide +kernel
  have hon : isOn "On".toList = true := by decide +kernel
  obtain ⟨r, hparses, hflag⟩ := parseConfig_flag hnear fresh .xinenb
  exact ⟨r, hparses, (hflag.mpr (fun val _ h => absurd h (by decide)) "On".toList hlast).trans hon⟩

theorem parseConfig_flag_octs :
    ∃ r, Parses fresh "C:octs=1".toList r ∧ r.2 = .returned 0 ∧
      Flag.ctsenb.lastValue (trimString "C:octs=1".toList '"') = some "1".toList ∧ isOn "1".toList = true ∧
      Flag.ctsenb.get r.1.tty_params = false := by
  have hnear : Near (trimString "C:octs=1".toList '"') := near_trimString (by simp)
  refine ⟨_, parseConfig_near hnear fresh, ?_, ?_, ?_, ?_⟩ <;> decide +kernel

/-! ## Unknown parameters -/

/-- A trimmed configuration without the parameters that have unknown names. -/
def knownOnly (s : Text) : Text :=
  if ':' ∈ s then
    s.takeWhile (· ≠ ':') ++ ':' :: [','].intercalate ((paramsOf s).filter fun param => !isUnknown param)
  else s

/-- `parse_config` returns 0 or -1, and leaves the same name and the same parameters without the unknown ones. -/
def Robust (d : Configured) (config_arg : Text) : Prop :=
  ∃ r r' code, Parses d config_arg r ∧ r.2 = .returned code ∧ (code = 0 ∨ code = -1) ∧
    Parses d (knownOnly (trimString config_arg '"')) r' ∧ r'.1.tty_device_name = r.1.tty_device_name ∧
    r'.1.tty_params = r.1.tty_params

/-- All the parameters but the last one, each with its comma. -/
theorem intercalate_concat {α : Type*} (c : α) (init : List (List α)) (last : List α) :
    [c].intercalate (init ++ [last]) = init.flatMap (· ++ [c]) ++ last := by
  induction init with
  | nil => simp
  | cons part init ih =>
    rw [List.cons_append, List.intercalate_cons_of_ne_nil (by simp), ih, List.flatMap_cons]
    simp

theorem foldl_apply_filter (params : List Text) (p : SerialParams) :
    (params.filter fun param => !isUnknown param).foldl apply p = params.foldl apply p := by
  induction params generalizing p with
  | nil => rfl
  | cons param params ih =>
    cases hunknown : isUnknown param with
    | true => rw [List.filter_cons_of_neg (by simp [hunknown]), ih, List.foldl_cons, apply_of_unknown hunknown]
    | false => rw [List.filter_cons_of_pos (by simp [hunknown]), List.foldl_cons, List.foldl_cons, ih]

/-- A configuration that is trimmed, with its parameters: the last one has no comma behind it. -/
theorem exists_params {s : Text} (h : ':' ∈ s) : ∃ x init last, ':' ∉ x ∧ (∀ param ∈ init ++ [last], ',' ∉ param) ∧
    s = x ++ ':' :: [','].intercalate (init ++ [last]) := by
  obtain ⟨x, y, hx, rfl⟩ := around h
  obtain ⟨init, last, hsplit⟩ := (List.eq_nil_or_concat' (y.splitOn ',')).resolve_left (List.splitOn_ne_nil ',' y)
  refine ⟨x, init, last, hx, fun param hparam => (of_mem_splitOn (hsplit ▸ hparam)).1, ?_⟩
  rw [← hsplit, List.intercalate_splitOn]

theorem paramsOf_intercalate {x : Text} {params : List Text} (hx : ':' ∉ x) (hparams : ∀ param ∈ params, ',' ∉ param)
    (hne : params ≠ []) : paramsOf (x ++ ':' :: [','].intercalate params) = params := by
  rw [paramsOf_append_cons hx, List.splitOn_intercalate ',' hparams hne]

theorem getLast?_separated (x : Text) (init : List Text) :
    (x ++ ':' :: init.flatMap (· ++ [','])).getLast? = some ':' ∨
      (x ++ ':' :: init.flatMap (· ++ [','])).getLast? = some ',' := by
  rcases List.eq_nil_or_concat' init with rfl | ⟨init, part, rfl⟩
  · exact Or.inl (by simp)
  · refine Or.inr ?_
    rw [List.flatMap_append, List.flatMap_singleton, ← List.cons_append, ← List.append_assoc, ← List.append_assoc,
      List.getLast?_concat]

/-- With parameters other than the last one left out, there is still nothing to be trimmed. -/
theorem trimString_sublist {x last : Text} {init init' : List Text} (hsub : init'.Sublist init)
    (htrim : trimString (x ++ ':' :: (init.flatMap (· ++ [',']) ++ last)) '"' =
      x ++ ':' :: (init.flatMap (· ++ [',']) ++ last)) :
    trimString (x ++ ':' :: (init'.flatMap (· ++ [',']) ++ last)) '"' =
      x ++ ':' :: (init'.flatMap (· ++ [',']) ++ last) := by
  obtain ⟨hsettled, hcntrl⟩ := trimString_eq_self_iff.mp htrim
  obtain ⟨hhead, hlast, hends⟩ := settled_iff.mp hsettled
  have hfirst : (x ++ ':' :: (init'.flatMap (· ++ [',']) ++ last)).head? =
      (x ++ ':' :: (init.flatMap (· ++ [',']) ++ last)).head? := by
    cases x <;> rfl
  have hfinal : (x ++ ':' :: (init'.flatMap (· ++ [',']) ++ last)).getLast? =
        (x ++ ':' :: (init.flatMap (· ++ [',']) ++ last)).getLast? ∨
      (x ++ ':' :: (init'.flatMap (· ++ [',']) ++ last)).getLast? = some ':' ∨
      (x ++ ':' :: (init'.flatMap (· ++ [',']) ++ last)).getLast? = some ',' := by
    rcases List.eq_nil_or_concat' last with rfl | ⟨last, a, rfl⟩
    · rw [List.append_nil]
      exact Or.inr (getLast?_separated x init')
    · refine Or.inl ?_
      simp only [← List.append_assoc, ← List.cons_append, List.getLast?_concat]
  have hsublist := (((hsub.flatMap (· ++ [','])).append_right last).cons_cons ':').append_left x
  refine trimString_eq_self_iff.mpr ⟨settled_iff.mpr ⟨?_, ?_, ?_⟩, fun a ha => hcntrl a (hsublist.subset ha)⟩
  · rw [hfirst]
    exact hhead
  · rcases hfinal with hfinal | hfinal | hfinal <;> rw [hfinal]
    · exact hlast
    · rintro a ⟨⟩
      decide
    · rintro a ⟨⟩
      decide
  · rw [hfirst]
    rcases hfinal with hfinal | hfinal | hfinal <;> rw [hfinal]
    · exact hends
    · exact fun h => absurd h.2 (by decide)
    · exact fun h => absurd h.2 (by decide)

theorem filter_concat {init : List Text} {last : Text} (hknown : isUnknown last = false) :
    ((init ++ [last]).filter fun param => !isUnknown param) = (init.filter fun param => !isUnknown param) ++ [last] := by
  rw [List.filter_append, List.filter_cons_of_pos (by simp [hknown]), List.filter_nil]

theorem knownOnly_intercalate {x last : Text} {init : List Text} (hx : ':' ∉ x)
    (hcomma : ∀ param ∈ init ++ [last], ',' ∉ param) (hknown : isUnknown last = false) :
    knownOnly (x ++ ':' :: [','].intercalate (init ++ [last])) =
      x ++ ':' :: [','].intercalate ((init.filter fun param => !isUnknown param) ++ [last]) := by
  rw [knownOnly, if_pos (by simp), paramsOf_intercalate hx hcomma (by simp), filter_concat hknown,
    (takeWhile_append_cons hx _).1]

/-- Without the unknown parameters a configuration is as near, and comes to the same. -/
theorem knownOnly_eq {s : Text} (hnear : Near s) (htrim : trimString s '"' = s) (hends : endsUnknown s = false)
    (d : Configured) : Near (knownOnly s) ∧ trimString (knownOnly s) '"' = knownOnly s ∧
      (configured d (knownOnly s)).tty_device_name = (configured d s).tty_device_name ∧
      (configured d (knownOnly s)).tty_params = (configured d s).tty_params := by
  by_cases hmem : ':' ∈ s
  · obtain ⟨x, init, last, hx, hcomma, rfl⟩ := exists_params hmem
    have hparams := paramsOf_intercalate hx hcomma (by simp)
    have hknown : isUnknown last = false := by
      unfold endsUnknown at hends
      rw [hparams] at hends
      simpa using hends
    have hfold := foldl_apply_filter (init ++ [last]) d.tty_params
    rw [knownOnly_intercalate hx hcomma hknown]
    rw [filter_concat hknown] at hfold
    have hsub : (init.filter fun param => !isUnknown param).Sublist init := List.filter_sublist
    generalize (init.filter fun param => !isUnknown param) = init' at *
    have hsub' := (hsub.append_right [last]).subset
    have hparams' := paramsOf_intercalate hx (fun param hparam => hcomma param (hsub' hparam)) (by simp)
    have hle : (x ++ ':' :: [','].intercalate (init' ++ [last])).length ≤
        (x ++ ':' :: [','].intercalate (init ++ [last])).length := by
      rw [intercalate_concat, intercalate_concat]
      exact ((((hsub.flatMap _).append_right last).cons_cons ':').append_left x).length_le
    refine ⟨⟨?_, ?_⟩, ?_, ?_, ?_⟩
    · rw [hparams']
      intro last' hlast'
      have hnear' := hnear.last last' (by rw [hparams]; simpa using hlast')
      omega
    · rw [hparams']
      intro param hparam
      exact hnear.value param (by rw [hparams]; exact hsub' hparam)
    · rw [intercalate_concat] at htrim ⊢
      exact trimString_sublist hsub htrim
    · unfold configured
      rw [(takeWhile_append_cons hx _).1, (takeWhile_append_cons hx _).1]
      simp
    · unfold configured
      rw [hparams, hparams']
      exact hfold
  · have heq : knownOnly s = s := if_neg hmem
    rw [heq]
    exact ⟨hnear, htrim, rfl, rfl⟩

theorem not_robust_of_outOfRange {d : Configured} {config_arg : Text} {r : Configured × Exit}
    (h : Parses d config_arg r) (hexit : r.2 = .outOfRange) : ¬ Robust d config_arg := by
  rintro ⟨r', _, code, hr', hcode, -⟩
  rw [hr'.unique h, hexit] at hcode
  cases hcode

theorem exitOf_returned_iff {s : Text} :
    (∃ code, exitOf s = .returned code ∧ (code = 0 ∨ code = -1)) ↔ endsUnknown s = false := by
  unfold exitOf
  split_ifs with hnil hends
  · rw [hnil]
    exact ⟨fun _ => rfl, fun _ => ⟨-1, rfl, Or.inr rfl⟩⟩
  · rw [hends]
    constructor
    · rintro ⟨code, hcode, -⟩
      cases hcode
    · intro h
      cases h
  · exact ⟨fun _ => Bool.eq_false_of_not_eq_true hends, fun _ => ⟨0, rfl, Or.inl rfl⟩⟩

/-- **Unknown parameters.**  A configuration with its parameters at positions that fit an `int` is parsed to its end, and
as it is without the unknown parameters, exactly if the last one is not unknown. -/
theorem parseConfig_robust {config_arg : Text} (h : Near (trimString config_arg '"')) (d : Configured) :
    Robust d config_arg ↔ endsUnknown (trimString config_arg '"') = false := by
  have hparses := parseConfig_near h d
  rw [← exitOf_returned_iff]
  constructor
  · rintro ⟨r, r', code, hr, hcode, hzero, -⟩
    rw [hr.unique hparses] at hcode
    exact ⟨code, hcode, hzero⟩
  · rintro ⟨code, hcode, hzero⟩
    have hends := exitOf_returned_iff.mp ⟨code, hcode, hzero⟩
    obtain ⟨hnear', htrim', hname, hparams⟩ := knownOnly_eq h (trimString_trimString config_arg '"') hends d
    have hparses' := parseConfig_near (htrim'.symm ▸ hnear') d
    rw [htrim'] at hparses'
    exact ⟨_, _, code, hparses, hcode, hzero, hparses', hname, hparams⟩

theorem parseConfig_robust_foo : Robust fresh "C:foo=1,baud=4800".toList := by
  have hnear : Near (trimString "C:foo=1,baud=4800".toList '"') := near_trimString (by simp)
  exact (parseConfig_robust hnear fresh).mpr (by decide +kernel)

theorem parseConfig_throws :
    ∃ r, Parses fresh "C:baud=4800,foo=1".toList r ∧ r.2 = .outOfRange ∧ ¬ Robust fresh "C:baud=4800,foo=1".toList := by
  have hnear : Near (trimString "C:baud=4800,foo=1".toList '"') := near_trimString (by simp)
  refine ⟨_, parseConfig_near hnear fresh, ?_, not_robust_of_outOfRange (parseConfig_near hnear fresh) ?_⟩ <;>
    decide +kernel

end Lasagne.Dev.TtyConfig
