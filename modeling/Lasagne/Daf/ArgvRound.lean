import Mathlib
import Lasagne.Daf.ConfiguratorGrammar
import Lasagne.Daf.TrimEnds

/-!
# Lasagne.Daf.ArgvRound — arguments that are put together and taken apart again

`parse_argv` puts arguments in one text, those with blanks between quotes, and an `ACE_ARGV` of the text takes it apart at
the blanks that are not between quotes.  Nothing is done about quotes in the arguments themselves.

* `word_quotes` : the quotes that a text begins with, and those that an argument of it begins with;
* `tokens_parseArgv` : the arguments in the text, one by one.
-/

namespace Lasagne.Daf

/-! ## Taking apart -/

def isQuote (c : Char) : Bool := c == '\'' || c == '"'

/-- The arguments of a text from a place on, which is between quotes or not: `cur` is what has been read of the argument that
the place is in.  An argument is dropped if its last quote is not matched. -/
def argvFrom : Option Char → Option Text → Text → List Text
  | none, cur, [] => cur.toList
  | some _, _, [] => []
  | none, cur, c :: s =>
    if isSpace c then cur.toList ++ argvFrom none none s
    else if isQuote c then argvFrom (some c) (some (cur.getD [])) s
    else argvFrom none (some (cur.getD [] ++ [c])) s
  | some quote, cur, c :: s =>
    if c = quote then argvFrom none cur s else argvFrom (some quote) (cur.map (· ++ [c])) s

/-- `ACE_ARGV(args, false)`: the blanks separate, and what is in quotes is kept together without them. -/
def tokens (args : Text) : List Text := argvFrom none none args

/-- What is still to come of the argument that a place is in, and what is behind it. -/
def word : Option Char → Text → Option (Text × Text)
  | none, [] => some ([], [])
  | some _, [] => none
  | none, c :: s =>
    if isSpace c then some ([], s)
    else if isQuote c then word (some c) s
    else (word none s).map fun (w, rest) => (c :: w, rest)
  | some quote, c :: s =>
    if c = quote then word none s else (word (some quote) s).map fun (w, rest) => (c :: w, rest)

/-- The argument that a place is in comes first. -/
theorem argvFrom_some (quote : Option Char) (cur s : Text) :
    argvFrom quote (some cur) s = (word quote s).elim [] fun (w, rest) => (cur ++ w) :: argvFrom none none rest := by
  induction s generalizing quote cur with
  | nil => cases quote <;> simp [argvFrom, word]
  | cons c s ih =>
    cases quote with
    | none =>
      rw [argvFrom, word]
      split_ifs with hspace hquote
      · simp
      · exact ih (some c) cur
      · rw [Option.getD_some, ih]
        cases word none s <;> simp
    | some quote =>
      rw [argvFrom, word]
      split_ifs with hquote
      · exact ih none cur
      · rw [Option.map_some, ih]
        cases word (some quote) s <;> simp

theorem tokens_cons {c : Char} (h : isSpace c = false) (s : Text) :
    tokens (c :: s) = (word none (c :: s)).elim [] fun (w, rest) => w :: tokens rest := by
  have hstart : argvFrom none none (c :: s) = argvFrom none (some []) (c :: s) := by
    have hno : ¬ isSpace c = true := by simp [h]
    rw [argvFrom, argvFrom, if_neg hno, if_neg hno]
    rfl
  rw [tokens, hstart, argvFrom_some]
  rfl

/-! ## The quotes -/

/-- How many quotes a text begins with. -/
def quotes (s : Text) : ℕ := (s.takeWhile isQuote).length

theorem quotes_cons (c : Char) (s : Text) : quotes (c :: s) = if isQuote c then quotes s + 1 else 0 := by
  unfold quotes
  rw [List.takeWhile_cons]
  split <;> rfl

theorem isSpace_of_isQuote {c : Char} (h : isQuote c = true) : isSpace c = false := by
  rcases Bool.or_eq_true_iff.mp h with hc | hc
  · rw [beq_iff_eq.mp hc]
    decide
  · rw [beq_iff_eq.mp hc]
    decide

/-- An argument does not begin with more quotes than the text it is read from, and with fewer if the first one opens it. -/
theorem word_quotes {quote : Option Char} (hopen : ∀ c ∈ quote, isQuote c = true) {s w rest : Text}
    (h : word quote s = some (w, rest)) :
    quotes w ≤ quotes s ∧ (quote = none → 0 < quotes s → quotes w < quotes s) := by
  induction s generalizing quote w rest with
  | nil =>
    cases quote with
    | none =>
      obtain ⟨rfl, -⟩ := Prod.mk.inj (Option.some.inj h)
      exact ⟨le_rfl, fun _ hlt => hlt⟩
    | some quote => cases h
  | cons c s ih =>
    cases quote with
    | none =>
      rw [word] at h
      rw [quotes_cons]
      split_ifs at h with hspace hquote
      · obtain ⟨rfl, -⟩ := Prod.mk.inj (Option.some.inj h)
        exact ⟨Nat.zero_le _, fun _ hlt => hlt⟩
      · obtain ⟨hle, -⟩ := ih (fun d hd => Option.mem_some.mp hd ▸ hquote) h
        rw [if_pos hquote]
        exact ⟨by omega, fun _ _ => by omega⟩
      · obtain ⟨⟨v, r⟩, hv, heq⟩ := Option.map_eq_some_iff.mp h
        obtain ⟨rfl, -⟩ := Prod.mk.inj heq
        rw [quotes_cons, if_neg hquote, if_neg hquote]
        exact ⟨le_rfl, fun _ hlt => hlt⟩
    | some quote =>
      rw [word] at h
      refine ⟨?_, fun hnone => by cases hnone⟩
      rw [quotes_cons]
      split_ifs at h with hclose
      · obtain ⟨hle, -⟩ := ih (fun d hd => by cases hd) h
        rw [if_pos (hclose ▸ hopen quote rfl)]
        omega
      · obtain ⟨⟨v, r⟩, hv, heq⟩ := Option.map_eq_some_iff.mp h
        obtain ⟨rfl, -⟩ := Prod.mk.inj heq
        rw [quotes_cons]
        split_ifs with hquote
        · exact Nat.succ_le_succ (ih hopen hv).1
        · exact le_rfl

/-! ## One argument -/

/-- An argument as `parse_argv` puts it in. -/
def rendered (a : Text) : Text := if findFirstOf a ' ' > 0 then '\'' :: a ++ ['\''] else a

/-- The quotes in it are none that an `ACE_ARGV` takes for the quotes around it or of it. -/
def Survives (a : Text) : Prop :=
  if findFirstOf a ' ' > 0 then '\'' ∉ a else ' ' ∉ a ∧ '\'' ∉ a ∧ '"' ∉ a

variable {a p z w rest : Text}

theorem word_plain_append (hp : ∀ c ∈ p, isSpace c = false ∧ isQuote c = false) (z : Text) :
    word none (p ++ z) = (word none z).map fun (w, rest) => (p ++ w, rest) := by
  induction p with
  | nil => simp
  | cons c p ih =>
    obtain ⟨hspace, hquote⟩ := hp c List.mem_cons_self
    rw [List.cons_append, word, if_neg (by simp [hspace]), if_neg (by simp [hquote]),
      ih fun d hd => hp d (List.mem_cons_of_mem c hd)]
    cases word none z <;> rfl

theorem word_within_append {quote : Char} (hp : quote ∉ p) (z : Text) :
    word (some quote) (p ++ z) = (word (some quote) z).map fun (w, rest) => (p ++ w, rest) := by
  induction p with
  | nil => simp
  | cons c p ih =>
    have hc : c ≠ quote := fun h => hp (h ▸ List.mem_cons_self)
    rw [List.cons_append, word, if_neg hc, ih fun h => hp (List.mem_cons_of_mem c h)]
    cases word (some quote) z <;> rfl

/-- A quote opens, and takes everything up to the next one. -/
theorem word_quote {quote : Char} (h : isQuote quote = true) (z : Text) :
    word none (quote :: z) = word (some quote) z := by
  rw [word, if_neg (by simp [isSpace_of_isQuote h]), if_pos h]

/-- What comes behind an argument: nothing, or a blank and the next one. -/
def Behind (rest : Text) : Prop := rest = [] ∨ ∃ next, rest = ' ' :: next

theorem Behind.word_eq (h : Behind rest) : word none rest = some ([], rest.tail) := by
  rcases h with rfl | ⟨next, rfl⟩
  · rfl
  · rw [word, if_pos (by decide)]
    rfl

theorem Behind.quotes_append (h : Behind rest) (s : Text) : quotes (s ++ rest) = quotes s := by
  induction s with
  | nil =>
    rcases h with rfl | ⟨next, rfl⟩
    · rfl
    · rw [List.nil_append, quotes_cons, if_neg (by decide)]
      rfl
  | cons c s ih => rw [List.cons_append, quotes_cons, quotes_cons, ih]

theorem Behind.quotes_le (h : Behind rest) (quote : Char) (s : Text) : quotes (s ++ quote :: rest) ≤ quotes s + 1 := by
  induction s with
  | nil =>
    have hrest : quotes rest = 0 := h.quotes_append []
    rw [List.nil_append, quotes_cons]
    split_ifs <;> omega
  | cons c s ih =>
    rw [List.cons_append, quotes_cons, quotes_cons]
    split_ifs <;> omega

/-- A text up to its first blank or quote. -/
theorem exists_plain (h : ∃ c ∈ a, isSpace c = true ∨ isQuote c = true) : ∃ p x s, a = p ++ x :: s ∧
    (∀ c ∈ p, isSpace c = false ∧ isQuote c = false) ∧ (isSpace x = true ∨ isQuote x = true) := by
  induction a with
  | nil =>
    obtain ⟨c, hc, -⟩ := h
    cases hc
  | cons c a ih =>
    by_cases hc : isSpace c = true ∨ isQuote c = true
    · exact ⟨[], c, a, rfl, by simp, hc⟩
    · obtain ⟨d, hd, hd'⟩ := h
      have hin : d ∈ a := (List.mem_cons.mp hd).resolve_left fun heq => hc (heq ▸ hd')
      obtain ⟨p, x, s, rfl, hp, hx⟩ := ih ⟨d, hin, hd'⟩
      refine ⟨c :: p, x, s, rfl, List.forall_mem_cons.mpr ⟨?_, hp⟩, hx⟩
      simpa using hc

/-- An argument that survives is read back. -/
theorem word_rendered (ht : Tidy a) (h : Survives a) (hrest : Behind rest) :
    word none (rendered a ++ rest) = some (a, rest.tail) := by
  unfold Survives at h
  unfold rendered
  split_ifs at h ⊢ with hblank
  · have hsplit : '\'' :: a ++ ['\''] ++ rest = '\'' :: (a ++ '\'' :: rest) := by simp
    rw [hsplit, word_quote (by decide), word_within_append h, word, if_pos rfl, hrest.word_eq]
    simp
  · obtain ⟨hspace, hsingle, hdouble⟩ := h
    have hplain : ∀ c ∈ a, isSpace c = false ∧ isQuote c = false := by
      intro c hc
      refine ⟨Bool.eq_false_of_not_eq_true fun hs => ?_, Bool.eq_false_of_not_eq_true fun hq => ?_⟩
      · exact hspace (eq_space hs (ht.cntrl c hc) ▸ hc)
      · rcases Bool.or_eq_true_iff.mp hq with hq | hq
        · exact hsingle (beq_iff_eq.mp hq ▸ hc)
        · exact hdouble (beq_iff_eq.mp hq ▸ hc)
    rw [word_plain_append hplain, hrest.word_eq]
    simp

/-- One that does not survive is not: with its first quote gone, there are too few to begin with behind it. -/
theorem word_rendered_ne (ht : Tidy a) (h : ¬ Survives a) (hrest : Behind rest) {r : Text}
    (hword : word none (rendered a ++ rest) = some (w, r)) : w ≠ a := by
  rintro rfl
  unfold Survives at h
  unfold rendered at hword
  split_ifs at h hword with hblank
  · obtain ⟨p, s, hp, rfl⟩ := around (not_not.mp h)
    have hsplit : '\'' :: (p ++ '\'' :: s) ++ ['\''] ++ rest = '\'' :: (p ++ '\'' :: (s ++ '\'' :: rest)) := by simp
    rw [hsplit, word_quote (by decide), word_within_append hp, word, if_pos rfl] at hword
    obtain ⟨⟨v, r'⟩, hv, heq⟩ := Option.map_eq_some_iff.mp hword
    obtain rfl : v = '\'' :: s := List.append_cancel_left (Prod.mk.inj heq).1
    obtain ⟨hle, hlt⟩ := word_quotes (fun _ hc => by cases hc) hv
    have hopen : quotes ('\'' :: s) = quotes s + 1 := by rw [quotes_cons, if_pos (by decide)]
    have hin := hrest.quotes_le '\'' s
    have hlt := hlt rfl (by omega)
    omega
  · have hmark : ∃ c ∈ w, isSpace c = true ∨ isQuote c = true := by
      by_contra hno
      push Not at hno
      refine h ⟨fun hc => ?_, fun hc => ?_, fun hc => ?_⟩
      · exact (hno _ hc).1 (by decide)
      · exact (hno _ hc).2 (by decide)
      · exact (hno _ hc).2 (by decide)
    obtain ⟨p, x, s, rfl, hp, hx⟩ := exists_plain hmark
    rw [List.append_assoc, word_plain_append hp, List.cons_append] at hword
    obtain ⟨⟨v, r'⟩, hv, heq⟩ := Option.map_eq_some_iff.mp hword
    obtain rfl : v = x :: s := List.append_cancel_left (Prod.mk.inj heq).1
    by_cases hspace : isSpace x = true
    · rw [word, if_pos hspace] at hv
      cases hv
    · have hquote := hx.resolve_left hspace
      rw [word_quote hquote] at hv
      obtain ⟨hle, -⟩ := word_quotes (fun _ hc => Option.mem_some.mp hc ▸ hquote) hv
      rw [quotes_cons, if_pos hquote, hrest.quotes_append] at hle
      omega

/-! ## All of them -/

/-- The arguments one after the other, with a blank between two of them. -/
def joined : List Text → Text
  | [] => []
  | a :: as => rendered a ++ as.flatMap fun b => ' ' :: rendered b

theorem rendered_ne_nil (h : a ≠ []) : rendered a ≠ [] := by
  unfold rendered
  split_ifs
  · simp
  · exact h

theorem joined_concat {as : List Text} (has : ∀ b ∈ as, b ≠ []) (a : Text) :
    joined (as ++ [a]) = (if joined as = [] then joined as else joined as ++ [' ']) ++ rendered a := by
  cases as with
  | nil => simp [joined]
  | cons b as =>
    have hne : joined (b :: as) ≠ [] := by
      intro hnil
      exact rendered_ne_nil (has b List.mem_cons_self) (List.append_eq_nil_iff.mp hnil).1
    rw [if_neg hne]
    simp [joined]

/-- What `parse_argv` is given and does not leave out. -/
def trimmed (args : List Text) : List Text := (args.map (trimString · ' ')).filter (· ≠ [])

theorem mem_trimmed {args : List Text} (h : a ∈ trimmed args) : Tidy a ∧ a ≠ [] := by
  obtain ⟨hmem, hne⟩ := List.mem_filter.mp h
  obtain ⟨arg, -, rfl⟩ := List.mem_map.mp hmem
  exact ⟨trimString_tidy arg ' ', by simpa using hne⟩

theorem parseArgv_eq (args : List Text) : parseArgv args true = joined (trimmed args) := by
  induction args using List.reverseRecOn with
  | nil => rfl
  | append_singleton args arg ih =>
    have hlast : parseArgv (args ++ [arg]) true =
        if trimString arg ' ' = [] then parseArgv args true
        else (if parseArgv args true = [] then parseArgv args true else parseArgv args true ++ [' ']) ++
          rendered (trimString arg ' ') := by
      unfold parseArgv rendered
      rw [List.foldl_append]
      simp
    have htrimmed : trimmed (args ++ [arg]) = trimmed args ++ [trimString arg ' '].filter (· ≠ []) := by
      simp [trimmed]
    rw [hlast, htrimmed, ih]
    by_cases hnil : trimString arg ' ' = []
    · simp [hnil]
    · rw [if_neg hnil, List.filter_cons_of_pos (by simpa using hnil), List.filter_nil,
        joined_concat fun b hb => (mem_trimmed hb).2]

/-- The first argument is read back if it survives, and then the others are read from what is behind it. -/
theorem tokens_joined {as : List Text} (has : ∀ b ∈ as, Tidy b ∧ b ≠ []) :
    tokens (joined as) = as ↔ ∀ b ∈ as, Survives b := by
  induction as with
  | nil => exact iff_of_true rfl (by simp)
  | cons a as ih =>
    obtain ⟨ht, hne⟩ := has a List.mem_cons_self
    have has' : ∀ b ∈ as, Tidy b ∧ b ≠ [] := fun b hb => has b (List.mem_cons_of_mem a hb)
    have hbehind : Behind (as.flatMap fun b => ' ' :: rendered b) := by
      cases as with
      | nil => exact Or.inl rfl
      | cons b as => exact Or.inr ⟨_, rfl⟩
    have htail : (as.flatMap fun b => ' ' :: rendered b).tail = joined as := by
      cases as <;> rfl
    have hfirst : ∃ c s, joined (a :: as) = c :: s ∧ isSpace c = false := by
      obtain ⟨c, a, rfl⟩ := List.exists_cons_of_ne_nil hne
      rw [joined, rendered]
      split_ifs
      · exact ⟨'\'', _, rfl, by decide⟩
      · exact ⟨c, _, rfl, ht.head c rfl⟩
    obtain ⟨c, s, hcons, hspace⟩ := hfirst
    have htokens := tokens_cons hspace s
    rw [← hcons] at htokens
    rw [htokens, List.forall_mem_cons]
    by_cases hsurvives : Survives a
    · rw [joined, word_rendered ht hsurvives hbehind, htail]
      simp only [Option.elim_some, List.cons.injEq, true_and, hsurvives]
      exact ih has'
    · refine iff_of_false ?_ fun h => hsurvives h.1
      cases hword : word none (joined (a :: as)) with
      | none => simp
      | some r =>
        obtain ⟨w, r⟩ := r
        rw [joined] at hword
        simp only [Option.elim_some, List.cons.injEq]
        exact fun h => word_rendered_ne ht hsurvives hbehind hword h.1

/-- The arguments come back from the text, trimmed, if none with a blank has a single quote in it, and none without a blank
has a quote. -/
theorem tokens_parseArgv (args : List Text) : tokens (parseArgv args true) = trimmed args ↔
    ∀ a ∈ trimmed args, Survives a := by
  rw [parseArgv_eq]
  exact tokens_joined fun b hb => mem_trimmed hb

/-- Quotes within an argument are gone. -/
theorem tokens_parseArgv_quotes : ¬ ∀ args : List Text, tokens (parseArgv args true) = trimmed args := by
  intro h
  exact absurd (h [['a', ' ', '\'', 'b', '\'', ' ', 'c']]) (by decide +kernel)

end Lasagne.Daf
