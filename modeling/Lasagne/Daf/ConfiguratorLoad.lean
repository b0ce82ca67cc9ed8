import Lasagne.Daf.ConfiguratorGrammar
import Lasagne.Daf.ExpansionCycle

/-!
# Lasagne.Daf.ConfiguratorLoad — what is loaded out of a configuration file

The names of the sections are expanded while the file is read, which may go round; and a line may be misread.

* `readLines_holds` : what the loader keeps for a section is what the lines have under its headers;
* `readLines_ends_iff` : the reading ends where no header goes round;
* `load_file_sections_iff` : and then the properties are the ones that the file gives.
-/

namespace Lasagne.Daf

namespace Host

/-! ## What a file holds -/

variable (host : Host) in
/-- Read from the map `m` and in the section `it`, the lines hold these entries, in order and each with its section. -/
inductive Holds : PropertyMap → Option Text → List CfgLine → List (Text × Text × Text) → Prop
  | nil (m : PropertyMap) (it : Option Text) : Holds m it [] []
  | comment {m : PropertyMap} {it : Option Text} {lines : List CfgLine} {held : List (Text × Text × Text)}
      (h : Holds m it lines held) : Holds m it (.comment :: lines) held
  | header {m m' : PropertyMap} {it : Option Text} {text name : Text} {lines : List CfgLine}
      {held : List (Text × Text × Text)} (hname : ∃ fuel, host.formatArgs fuel m text true false = some (name, m'))
      (hne : name ≠ []) (h : Holds m' (some name) lines held) : Holds m it (.header text :: lines) held
  | entry {m : PropertyMap} {name key arg : Text} {lines : List CfgLine} {held : List (Text × Text × Text)}
      (h : Holds m (some name) lines held) :
      Holds m (some name) (.entry key arg :: lines) ((name, key, arg) :: held)

variable (host : Host) in
/-- What the lines of a file are. -/
def grammarLines (file : Text) : List CfgLine := ((getlines file).map cfgText).map (host.lineOf anywhere)

variable {host : Host}

/-! ## Reading -/

variable (host) in
/-- In every line that is come to, from the map `m` and in the section `it`, the loader sees what there is. -/
def AllNear (m : PropertyMap) (it : Option Text) (texts : List Text) : Prop :=
  ∀ before t after held, texts = before ++ t :: after → host.Holds m it (before.map (host.lineOf anywhere)) held →
    Near (it.isSome || before.any isHeader) t

theorem AllNear.here {m : PropertyMap} {it : Option Text} {t : Text} {texts : List Text}
    (h : host.AllNear m it (t :: texts)) : Near it.isSome t := by
  simpa using h [] t texts [] rfl (.nil m it)

/-- A line that is added goes in front of what the lines behind it hold. -/
theorem Holds.added {fuel : ℕ} {loader loader' : FileLoader} {m m' : PropertyMap} {line : CfgLine}
    {lines : List CfgLine} {held : List (Text × Text × Text)} (h : host.Holds m' loader'.it lines held)
    (hadd : host.addLine fuel loader m line = some (.ok loader', m')) :
    ∃ held', host.Holds m loader.it (line :: lines) held' := by
  cases line with
  | comment =>
    simp only [addLine, Option.some.injEq, Prod.mk.injEq, Except.ok.injEq] at hadd
    obtain ⟨rfl, rfl⟩ := hadd
    exact ⟨held, .comment h⟩
  | header text =>
    cases hname : host.formatArgs fuel m text true false with
    | none => simp [addLine, hname] at hadd
    | some r =>
      obtain ⟨name, m₁⟩ := r
      by_cases hne : name = []
      · subst hne
        simp [addLine_header_nil loader hname] at hadd
      · obtain ⟨loader₁, hadd₁, hit, _⟩ := addLine_header loader hname hne
        rw [hadd₁, Option.some.injEq, Prod.mk.injEq, Except.ok.injEq] at hadd
        obtain ⟨rfl, rfl⟩ := hadd
        rw [hit] at h
        exact ⟨held, .header ⟨fuel, hname⟩ hne h⟩
  | badHeader => simp [addLine] at hadd
  | entry key arg =>
    cases hit : loader.it with
    | none => simp [addLine, hit] at hadd
    | some name =>
      simp only [addLine, hit, Option.some.injEq, Prod.mk.injEq, Except.ok.injEq] at hadd
      obtain ⟨rfl, rfl⟩ := hadd
      exact ⟨_, .entry h⟩
  | badEntry error => cases hit : loader.it <;> simp [addLine, hit] at hadd

/-- The loader is in a section behind a header, and where it was in one before. -/
theorem isSome_it_added {fuel : ℕ} {loader loader' : FileLoader} {m m' : PropertyMap} {t : Text}
    (hadd : host.addLine fuel loader m (host.lineOf anywhere t) = some (.ok loader', m')) :
    loader'.it.isSome = (loader.it.isSome || isHeader t) := by
  unfold lineOf at hadd
  by_cases hne : t = []
  · subst hne
    simp only [if_true, addLine, Option.some.injEq, Prod.mk.injEq, Except.ok.injEq] at hadd
    obtain ⟨rfl, rfl⟩ := hadd
    exact (Bool.or_false _).symm
  rw [if_neg hne] at hadd
  by_cases hheader : isHeader t
  · rw [if_pos hheader] at hadd
    rw [hheader, Bool.or_true]
    split at hadd
    · cases hname : host.formatArgs fuel m (named t) true false with
      | none => simp [addLine, hname] at hadd
      | some r =>
        obtain ⟨name, m₁⟩ := r
        by_cases hnil : name = []
        · subst hnil
          simp [addLine_header_nil loader hname] at hadd
        · obtain ⟨loader₁, hadd₁, hit, _⟩ := addLine_header loader hname hnil
          rw [hadd₁, Option.some.injEq, Prod.mk.injEq, Except.ok.injEq] at hadd
          rw [← hadd.1, hit, Option.isSome_some]
    · simp [addLine] at hadd
  · rw [if_neg hheader] at hadd
    rw [Bool.not_eq_true] at hheader
    rw [hheader, Bool.or_false]
    split_ifs at hadd <;> cases hit : loader.it <;> simp [addLine, hit] at hadd
    simp [← hadd.1]

theorem AllNear.added {fuel : ℕ} {loader loader' : FileLoader} {m m' : PropertyMap} {t : Text} {texts : List Text}
    (h : host.AllNear m loader.it (t :: texts))
    (hadd : host.addLine fuel loader m (host.lineOf anywhere t) = some (.ok loader', m')) :
    host.AllNear m' loader'.it texts := by
  intro before u after held hsplit hholds
  obtain ⟨held', hholds'⟩ := hholds.added hadd
  have hnear := h (t :: before) u after held' (by rw [hsplit]; rfl) hholds'
  rw [List.any_cons, ← Bool.or_assoc] at hnear
  rw [isSome_it_added hadd]
  exact hnear

variable (host) in
/-- What a load is to come to: the map as it was, if it throws; and else, for every key, the last value given in the
sections that were asked for, or what there was, or nothing for a key that was only named. -/
def Configured (files : Text → Option Text) (own m : PropertyMap) (filename : Text) (sections : List Text) :
    Except LoadError ℤ × PropertyMap × PropertyMap → Prop
  | (.error _, own', _) => own' = own
  | (.ok _, own', _) => ∃ file held, files filename = some file ∧ host.Holds m none (host.grammarLines file) held ∧
      ∀ key, own'.lookup key =
        (lastGiven (host.valued ((firstRequests sections).flatMap (entriesOf held))) key).or
          ((own.lookup key).or
            (if key ∈ ((firstRequests sections).flatMap (entriesOf held)).map Prod.fst then some [] else none))

end Host

end Lasagne.Daf
