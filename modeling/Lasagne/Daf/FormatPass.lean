import Lasagne.Daf.FormatLoop

/-!
# Lasagne.Daf.FormatPass — the formats of an argument, in one pass

Without a reference to a property the loop of `DAF::format_args` comes to what one pass from the left makes of the
argument.  Behind a reference the pass goes over the value that has been put in, and over what follows it.

* `expand_pass` : the loop is the pass, where no property is referred to;
* `fits_of_short` : and the argument stays short if the pass keeps it short;
* `literal_iff` : the pass leaves a text alone exactly if no `%` in it begins a format.
-/

namespace Lasagne.Daf

/-! ## The pass -/

/-- One pass over an argument. -/
def Host.pass (host : Host) : Text → Text
  | '%' :: '%' :: rest => '%' :: pass host rest
  | '%' :: 'H' :: rest => host.hostname ++ pass host rest
  | '%' :: 't' :: rest => host.threadId ++ pass host rest
  | '%' :: 'P' :: rest => host.processId ++ pass host rest
  | '%' :: 'D' :: 'g' :: rest => host.gmTime false ++ pass host rest
  | '%' :: 'D' :: 'G' :: rest => host.gmTime true ++ pass host rest
  | '%' :: 'D' :: 'l' :: rest => host.localTime false ++ pass host rest
  | '%' :: 'D' :: 'L' :: rest => host.localTime true ++ pass host rest
  | '%' :: 'D' :: rest => pass host rest
  | '%' :: 'T' :: 'u' :: rest => host.utcTime ++ pass host rest
  | '%' :: 'T' :: rest => pass host rest
  | '%' :: 'p' :: rest => pass host rest
  | '%' :: c :: rest => '%' :: c :: pass host rest
  | c :: rest => c :: pass host rest
  | [] => []

/-- The pass comes to no `%p{ident}`. -/
def unreferring : Text → Bool
  | '%' :: 'p' :: '{' :: body => decide ('}' ∉ body) && unreferring body
  | '%' :: _ :: rest => unreferring rest
  | _ :: rest => unreferring rest
  | [] => true

/-- And to no `%H`, if the name of the host has a `%` in it. -/
def Host.calm (host : Host) : Text → Bool
  | '%' :: 'p' :: '{' :: body => decide ('}' ∉ body) && calm host body
  | '%' :: 'H' :: rest => decide ('%' ∉ host.hostname) && calm host rest
  | '%' :: _ :: rest => calm host rest
  | _ :: rest => calm host rest
  | [] => true

/-- No `%` that the pass comes to begins a format. -/
def literal : Text → Bool
  | '%' :: c :: rest => decide (c ∉ ['%', 'H', 't', 'P', 'p', 'D', 'T']) && literal rest
  | _ :: rest => literal rest
  | [] => true

/-- With every `%` doubled. -/
def doubled (s : Text) : Text := s.flatMap fun c => if c = '%' then ['%', '%'] else [c]

/-- With `n` characters before it, the argument is shorter than 2^31 whenever the pass comes to a `%`. -/
def Host.Short (host : Host) (n : ℕ) (t : Text) : Prop :=
  ∀ x y, t = x ++ '%' :: y → n + (host.pass x).length + (y.length + 1) < 2 ^ 31

namespace Host

variable {host : Host}

theorem pass_cons {c : Char} (hc : c ≠ '%') (rest : Text) : host.pass (c :: rest) = c :: host.pass rest := by
  rw [pass.eq_def]
  simp [hc]

theorem pass_append {x : Text} (hx : '%' ∉ x) (y : Text) : host.pass (x ++ y) = x ++ host.pass y := by
  induction x with
  | nil => rfl
  | cons c x ih =>
    rw [List.mem_cons, not_or] at hx
    rw [List.cons_append, pass_cons (Ne.symm hx.1), ih hx.2, List.cons_append]

theorem pass_of_notMem {x : Text} (hx : '%' ∉ x) : host.pass x = x := by
  rw [← List.append_nil x, pass_append hx]
  rfl

theorem pass_keep {after out rest : Text} (h : host.directive after = .keep out rest) :
    host.pass ('%' :: after) = out ++ host.pass rest := by
  fun_cases Host.directive host after with
  | case1 =>
    obtain ⟨rfl, rfl⟩ := Directive.keep.inj h
    rfl
  | case2 =>
    obtain ⟨rfl, rfl⟩ := Directive.keep.inj h
    rfl
  | case16 c rest =>
    simp only [directive, Directive.keep.injEq] at h
    obtain ⟨rfl, rfl⟩ := h
    simp_all [pass]
  | _ => simp_all [directive]

theorem pass_insert {after text rest : Text} (h : host.directive after = .insert text rest) :
    host.pass ('%' :: after) = text ++ host.pass rest := by
  fun_cases Host.directive host after <;> simp_all [directive, pass]

theorem calm_cons {c : Char} (hc : c ≠ '%') (rest : Text) : host.calm (c :: rest) = host.calm rest := by
  rw [calm.eq_def]
  simp [hc]

theorem calm_append {x : Text} (hx : '%' ∉ x) (y : Text) : host.calm (x ++ y) = host.calm y := by
  induction x with
  | nil => rfl
  | cons c x ih =>
    rw [List.mem_cons, not_or] at hx
    rw [List.cons_append, calm_cons (Ne.symm hx.1), ih hx.2]

theorem calm_of_unreferring (hplain : '%' ∉ host.hostname) {t : Text} (h : unreferring t = true) :
    host.calm t = true := by
  fun_induction Host.calm host t <;> simp_all [unreferring]

variable (host) in
/-- What the pass comes to, where it comes to no reference. -/
theorem directive_of_calm {after : Text} (h : host.calm ('%' :: after) = true) :
    (∃ out rest, host.directive after = .keep out rest ∧ host.calm rest = true) ∨
      ∃ text rest, host.directive after = .insert text rest ∧ '%' ∉ text ∧ host.calm rest = true := by
  have hnumber := And.intro host.threadId_plain host.processId_plain
  have htime := And.intro host.gmTime_plain (And.intro host.localTime_plain host.utcTime_plain)
  fun_cases Host.directive host after with
  | case1 => exact Or.inl ⟨_, _, rfl, rfl⟩
  | case2 => exact Or.inl ⟨_, _, rfl, h⟩
  | case6 body hbrace => simp [calm, hbrace] at h
  | case7 body hbrace =>
    have hbody : host.calm body = true := by simpa [calm, hbrace] using h
    exact Or.inr ⟨_, _, rfl, by simp, by rwa [calm_cons (by decide)]⟩
  | case8 rest hne =>
    refine Or.inr ⟨_, _, rfl, by simp, ?_⟩
    cases rest with
    | nil => rfl
    | cons c rest => simp_all [calm]
  | case16 c rest => exact Or.inl ⟨_, _, rfl, by simp_all [calm]⟩
  | case3 rest =>
    rw [calm, Bool.and_eq_true, decide_eq_true_eq] at h
    exact Or.inr ⟨_, _, rfl, h.1, h.2⟩
  | _ => exact Or.inr ⟨_, _, rfl, by simp_all, by simp_all [calm]⟩

variable (host) in
/-- The loop is the pass, where no property is referred to. -/
theorem expand_pass (get : Lookup) (m : PropertyMap) (done : Text) {rest : Text} {fuel : ℕ}
    (hfuel : rest.length < fuel) (h : host.calm rest = true) :
    host.expand get fuel m done rest = some (done ++ host.pass rest, m) := by
  induction fuel generalizing done rest with
  | zero => omega
  | succ fuel ih =>
    by_cases hp : '%' ∈ rest
    · obtain ⟨x, after, rfl, hx⟩ := List.eq_append_cons_of_mem hp
      rw [calm_append hx] at h
      rw [List.length_append, List.length_cons] at hfuel
      rw [expand, (dropWhile_append_cons hx _).1, (dropWhile_append_cons hx _).2, pass_append hx]
      dsimp only
      rcases directive_of_calm host h with ⟨out, rest, hd, hrest⟩ | ⟨text, rest, hd, htext, hrest⟩
      · have hshorter := (directive_keep hd).length_le
        rw [hd, pass_keep hd]
        dsimp only
        rw [ih (done ++ x ++ out) (by omega) hrest]
        simp only [List.append_assoc]
      · have hshorter := (directive_insert hd).length_le
        rw [hd, pass_insert hd]
        dsimp only
        rw [expand_append get fuel m _ htext, ih (done ++ x ++ text) (by omega) hrest]
        simp only [List.append_assoc]
    · have hnil := dropWhile_of_notMem hp
      rw [expand, hnil, pass_of_notMem hp]

/-! ## Short arguments -/

/-- A directive is the same with less behind it. -/
theorem keep_of_prefix {after out x y : Text} (h : host.directive after = .keep out (x ++ '%' :: y)) :
    ∃ c, after = c ++ (x ++ '%' :: y) ∧ host.directive (c ++ x) = .keep out x := by
  fun_cases Host.directive host after with
  | case1 => simp [directive] at h
  | case2 rest =>
    obtain ⟨rfl, rfl⟩ := Directive.keep.inj h
    exact ⟨['%'], rfl, rfl⟩
  | case16 c rest =>
    simp only [directive, Directive.keep.injEq] at h
    obtain ⟨rfl, rfl⟩ := h
    refine ⟨[c], rfl, ?_⟩
    simp_all [directive]
  | _ => simp_all [directive]

theorem insert_of_prefix {after text x y : Text} (h : host.directive after = .insert text (x ++ '%' :: y)) :
    ∃ c, after = c ++ (x ++ '%' :: y) ∧ host.directive (c ++ x) = .insert text x := by
  fun_cases Host.directive host after with
  | case1 => simp [directive] at h
  | case2 => simp [directive] at h
  | case6 body hbrace => simp [directive, hbrace] at h
  | case7 body hbrace =>
    simp only [directive, if_neg hbrace, Directive.insert.injEq] at h
    obtain ⟨rfl, hrest⟩ := h
    refine ⟨['p'], by rw [← hrest]; rfl, ?_⟩
    cases x with
    | nil => rfl
    | cons a x =>
      obtain ⟨rfl, rfl⟩ := List.cons.inj hrest
      have hx : '}' ∉ x := fun hmem => hbrace (List.mem_append_left _ hmem)
      simp [directive, hx]
  | case8 rest hne =>
    simp only [directive, Directive.insert.injEq] at h
    obtain ⟨rfl, rfl⟩ := h
    refine ⟨['p'], rfl, ?_⟩
    cases x <;> simp_all [directive]
  | case13 rest hg hG hl hL =>
    simp only [directive, Directive.insert.injEq] at h
    obtain ⟨rfl, rfl⟩ := h
    refine ⟨['D'], rfl, ?_⟩
    cases x <;> simp_all [directive]
  | case15 rest hu =>
    simp only [directive, Directive.insert.injEq] at h
    obtain ⟨rfl, rfl⟩ := h
    refine ⟨['T'], rfl, ?_⟩
    cases x <;> simp_all [directive]
  | case16 c rest => simp_all [directive]
  | case9 | case10 | case11 | case12 =>
    obtain ⟨rfl, rfl⟩ := Directive.insert.inj h
    exact ⟨['D', _], rfl, rfl⟩
  | case14 =>
    obtain ⟨rfl, rfl⟩ := Directive.insert.inj h
    exact ⟨['T', 'u'], rfl, rfl⟩
  | _ =>
    obtain ⟨rfl, rfl⟩ := Directive.insert.inj h
    exact ⟨[_], rfl, rfl⟩

theorem Short.append {n : ℕ} {x t : Text} (hx : '%' ∉ x) (h : host.Short n (x ++ t)) : host.Short (n + x.length) t := by
  rintro x' y rfl
  have hlen := h (x ++ x') y (List.append_assoc x x' _).symm
  rw [pass_append hx, List.length_append] at hlen
  omega

theorem Short.of_append {n : ℕ} {x t : Text} (hx : '%' ∉ x) (h : host.Short (n + x.length) t) :
    host.Short n (x ++ t) := by
  intro x' y ht
  obtain ⟨x'', rfl⟩ : ∃ x'', x' = x ++ x'' := by
    rcases List.append_eq_append_iff.mp ht with ⟨x'', hx'', _⟩ | ⟨b, hb, hy⟩
    · exact ⟨x'', hx''⟩
    · cases b with
      | nil => exact ⟨[], by rw [hb, List.append_nil, List.append_nil]⟩
      | cons c b =>
        obtain ⟨rfl, _⟩ := List.cons.inj hy
        exact absurd (by simp [hb]) hx
  rw [List.append_assoc, List.append_cancel_left_eq] at ht
  have hlen := h x'' y ht
  rw [pass_append hx, List.length_append]
  omega

theorem Short.keep {n : ℕ} {after out rest : Text} (hd : host.directive after = .keep out rest)
    (h : host.Short n ('%' :: after)) : host.Short (n + out.length) rest := by
  rintro x y rfl
  obtain ⟨c, rfl, hc⟩ := keep_of_prefix hd
  have hlen := h ('%' :: (c ++ x)) y (by simp)
  rw [pass_keep hc, List.length_append] at hlen
  omega

theorem Short.insert {n : ℕ} {after text rest : Text} (hd : host.directive after = .insert text rest)
    (htext : '%' ∉ text) (h : host.Short n ('%' :: after)) : host.Short n (text ++ rest) := by
  refine Short.of_append htext ?_
  rintro x y rfl
  obtain ⟨c, rfl, hc⟩ := insert_of_prefix hd
  have hlen := h ('%' :: (c ++ x)) y (by simp)
  rw [pass_insert hc, List.length_append] at hlen
  omega

/-- The argument stays short if the pass keeps it short. -/
theorem fits_of_short (get : Lookup) (fuel : ℕ) (m : PropertyMap) {done rest : Text} (hrest : host.calm rest = true)
    (h : host.Short done.length rest) : host.Fits get (fun _ _ => True) fuel m done rest := by
  induction fuel generalizing done rest with
  | zero => trivial
  | succ fuel ih =>
    by_cases hp : '%' ∈ rest
    · obtain ⟨x, after, rfl, hx⟩ := List.eq_append_cons_of_mem hp
      rw [Fits, (dropWhile_append_cons hx _).1, (dropWhile_append_cons hx _).2]
      have hlen := h x after rfl
      rw [pass_of_notMem hx] at hlen
      rw [calm_append hx] at hrest
      have hthere := h.append hx
      refine ⟨by rw [List.length_append, List.length_append, List.length_cons]; omega, ?_⟩
      rcases directive_of_calm host hrest with ⟨out, rest, hd, hrest⟩ | ⟨text, rest, hd, htext, hrest⟩
      · have hkeep := hthere.keep hd
        rw [hd]
        refine ih hrest ?_
        rwa [List.length_append, List.length_append]
      · rw [hd]
        refine ih ?_ ?_
        · rwa [calm_append htext]
        · rw [List.length_append]
          exact hthere.insert hd htext
    · have hnil := dropWhile_of_notMem hp
      rw [Fits, hnil]
      trivial

/-! ## Doubled characters -/

theorem doubled_of_notMem {s : Text} (h : '%' ∉ s) : doubled s = s := by
  induction s with
  | nil => rfl
  | cons c s ih =>
    rw [List.mem_cons, not_or] at h
    rw [doubled, List.flatMap_cons, if_neg (Ne.symm h.1), ← doubled, ih h.2, List.singleton_append]

theorem pass_doubled (s : Text) : host.pass (doubled s) = s := by
  induction s with
  | nil => rfl
  | cons c s ih =>
    unfold doubled at ih ⊢
    rw [List.flatMap_cons]
    split_ifs with hc
    · rw [hc]
      exact congrArg ('%' :: ·) ih
    · exact (pass_cons hc _).trans (congrArg (c :: ·) ih)

variable (host) in
theorem calm_doubled (s : Text) : host.calm (doubled s) = true := by
  induction s with
  | nil => rfl
  | cons c s ih =>
    unfold doubled at ih ⊢
    rw [List.flatMap_cons]
    split_ifs with hc
    · exact ih
    · exact (calm_cons hc _).trans ih

variable (host) in
/-- Of doubled characters the pass makes no more. -/
theorem length_pass_doubled {s x y : Text} (h : doubled s = x ++ '%' :: y) : (host.pass x).length ≤ x.length := by
  induction s generalizing x with
  | nil => simp [doubled] at h
  | cons c s ih =>
    cases x with
    | nil => exact le_rfl
    | cons a x =>
      by_cases hc : c = '%'
      · subst hc
        have hpair : '%' :: '%' :: doubled s = a :: x ++ '%' :: y := h
        obtain ⟨rfl, htail⟩ := List.cons.inj hpair
        cases x with
        | nil => exact le_rfl
        | cons b x =>
          obtain ⟨rfl, hrest⟩ := List.cons.inj htail
          have hle := ih hrest
          have hpass : host.pass ('%' :: '%' :: x) = '%' :: host.pass x := rfl
          rw [hpass, List.length_cons, List.length_cons, List.length_cons]
          omega
      · have hone : c :: doubled s = a :: x ++ '%' :: y := by
          rw [← h]
          simp [doubled, hc]
        obtain ⟨rfl, hrest⟩ := List.cons.inj hone
        have hle := ih hrest
        rw [pass_cons hc, List.length_cons, List.length_cons]
        omega

theorem short_doubled {s : Text} (h : '%' ∈ s → (doubled s).length < 2 ^ 31) : host.Short 0 (doubled s) := by
  intro x y hxy
  have hmem : '%' ∈ s := by
    have hthere : '%' ∈ doubled s := by simp [hxy]
    obtain ⟨c, hc, hin⟩ := List.mem_flatMap.mp hthere
    split_ifs at hin with hpercent
    · rwa [hpercent] at hc
    · rw [List.mem_singleton] at hin
      exact absurd hin.symm hpercent
  have hlen := h hmem
  have hle := length_pass_doubled host hxy
  rw [hxy, List.length_append, List.length_cons] at hlen
  omega

variable (host) in
/-- The loop over positions is the pass, where no property is referred to. -/
theorem formatLoop_pass (get : Lookup) (m : PropertyMap) {arg : Text} (hcalm : host.calm arg = true)
    (hshort : host.Short 0 arg) : host.formatLoop get (arg.length + 1) m arg 0 = some (host.pass arg, m) := by
  have hfits : host.Fits get (fun _ _ => True) (arg.length + 1) m [] arg := fits_of_short get _ m hcalm hshort
  have hloop := formatLoop_eq (fun _ _ _ => rfl) hfits
  rw [List.nil_append, List.length_nil] at hloop
  rw [hloop, expand_pass host get m [] (Nat.lt_succ_self _) hcalm, List.nil_append]

/-- An argument of which the length is negative in an `int` is left as it is. -/
theorem formatLoop_long (get : Lookup) {fuel : ℕ} {m : PropertyMap} {arg : Text} {pos : ℕ} {r : Text × PropertyMap}
    (hlen : toInt arg.length < 0) (h : host.formatLoop get fuel m arg pos = some r) : r = (arg, m) := by
  induction fuel generalizing pos with
  | zero => exact absurd h (by simp [formatLoop])
  | succ fuel ih =>
    rw [formatLoop] at h
    dsimp only at h
    split_ifs at h with hend hlong
    · exact (Option.some.inj h).symm
    · omega
    · exact ih h

/-- **Escaping.**  A doubled `%` comes out as it was, and an argument without references as the pass leaves it, where the
name of the host has no `%`, if the argument is shorter than 2^31 characters whenever there is a `%` to look at; where
its length is negative in an `int` it does not, unless there is nothing to do. -/
theorem format_loop_passes (host : Host) (get : Lookup) (m : PropertyMap) :
    (∀ s : Text, ('%' ∈ s → (doubled s).length < 2 ^ 31) →
      ∃ fuel, host.formatLoop get fuel m (doubled s) 0 = some (s, m)) ∧
    ('%' ∉ host.hostname → ∀ arg : Text, unreferring arg = true → host.Short 0 arg →
      ∃ fuel, host.formatLoop get fuel m arg 0 = some (host.pass arg, m)) ∧
    ∀ arg : Text, toInt arg.length < 0 → host.pass arg ≠ arg →
      ¬ ∃ fuel, host.formatLoop get fuel m arg 0 = some (host.pass arg, m) := by
  refine ⟨fun s h => ?_, fun hplain arg hrefers hshort =>
    ⟨_, formatLoop_pass host get m (calm_of_unreferring hplain hrefers) hshort⟩, ?_⟩
  · have hloop := formatLoop_pass host get m (calm_doubled host s) (short_doubled h)
    rw [pass_doubled] at hloop
    exact ⟨_, hloop⟩
  · rintro arg hlen hne ⟨fuel, h⟩
    exact hne (congrArg Prod.fst (formatLoop_long get hlen h))

theorem short_of_inits {n : ℕ} {t : Text} (h : ∀ x ∈ t.inits, n + (host.pass x).length + t.length < 2 ^ 31) :
    host.Short n t := by
  rintro x y rfl
  have hlen := h x ((List.mem_inits _ _).mpr (List.prefix_append _ _))
  rw [List.length_append, List.length_cons] at hlen
  omega

theorem format_loop_passes_two : (∃ fuel, bareHost.formatLoop (fun _ _ => none) fuel [] ['5', '%', '%'] 0 =
      some (['5', '%'], [])) ∧
    ∃ fuel, bareHost.formatLoop (fun _ _ => none) fuel [] ['%', 'H', '%', '%', '%', 'D'] 0 =
      some (['h', '%'], []) :=
  ⟨(format_loop_passes bareHost (fun _ _ => none) []).1 ['5', '%'] (fun _ => by decide),
    (format_loop_passes bareHost (fun _ _ => none) []).2.1 (by decide) ['%', 'H', '%', '%', '%', 'D'] (by decide)
      (short_of_inits (by decide))⟩

/-- Of 2^31 characters the two at the front stay two. -/
theorem format_loop_passes_fails : ¬ ∀ (host : Host) (get : Lookup) (m : PropertyMap) (s : Text),
    ∃ fuel, host.formatLoop get fuel m (doubled s) 0 = some (s, m) := by
  intro h
  obtain ⟨x, hx, hlen⟩ : ∃ x : Text, '%' ∉ x ∧ x.length = 2 ^ 31 - 2 :=
    ⟨List.replicate (2 ^ 31 - 2) 'a', fun hmem => absurd (List.eq_of_mem_replicate hmem) (by decide),
      List.length_replicate⟩
  have hdoubled : doubled ('%' :: x) = '%' :: '%' :: x := by
    rw [doubled, List.flatMap_cons, ← doubled, doubled_of_notMem hx]
    rfl
  have hint : toInt (doubled ('%' :: x)).length < 0 := by
    rw [hdoubled, List.length_cons, List.length_cons, hlen]
    decide
  obtain ⟨fuel, hloop⟩ := h bareHost (fun _ _ => none) [] ('%' :: x)
  have hsame : '%' :: x = doubled ('%' :: x) := congrArg Prod.fst (formatLoop_long _ hint hloop)
  have hlong := congrArg List.length hsame
  rw [hdoubled, List.length_cons, List.length_cons, List.length_cons] at hlong
  omega

/-! ## What is put in for a property -/

theorem calm_of_literal {t : Text} (h : literal t = true) : host.calm t = true := by
  fun_induction literal t with
  | case1 c rest ih =>
    rw [Bool.and_eq_true, decide_eq_true_eq] at h
    obtain ⟨hc, hrest⟩ := h
    simp_all [calm]
  | case2 c rest hne ih => simp_all [calm]
  | case3 => rfl

theorem pass_of_literal {t : Text} (h : literal t = true) : host.pass t = t := by
  fun_induction literal t with
  | case1 c rest ih =>
    rw [Bool.and_eq_true, decide_eq_true_eq] at h
    obtain ⟨hc, hrest⟩ := h
    simp_all [pass]
  | case2 c rest hne ih => simp_all [pass]
  | case3 => rfl

variable (host) in
/-- The pass takes a `%` away for each one that begins a format. -/
theorem count_pass (hplain : '%' ∉ host.hostname) (t : Text) : (host.pass t).count '%' ≤ t.count '%' ∧
    (literal t = false → (host.pass t).count '%' < t.count '%') := by
  have hnumber := And.intro host.threadId_plain host.processId_plain
  have htime := And.intro host.gmTime_plain (And.intro host.localTime_plain host.utcTime_plain)
  fun_induction Host.pass host t with
  | case13 c rest => simp_all [literal]
  | case14 c rest hne ih => simp_all [literal, List.count_cons]
  | case15 => simp [literal]
  | _ =>
    simp_all [List.count_eq_zero_of_not_mem]
    omega

theorem literal_iff (hplain : '%' ∉ host.hostname) (t : Text) : host.pass t = t ↔ literal t = true := by
  constructor
  · intro h
    by_contra hno
    have hless := (count_pass host hplain t).2 (Bool.eq_false_of_not_eq_true hno)
    rw [h] at hless
    exact lt_irrefl _ hless
  · exact pass_of_literal

theorem directive_reference {key b : Text} (hkey : '}' ∉ key) :
    host.directive ('p' :: '{' :: (key ++ '}' :: b)) = .property key b := by
  rw [directive, if_pos (by simp), (dropWhile_append_cons hkey b).2, (dropWhile_append_cons hkey b).1]
  rfl

section Reference

variable {get : Lookup} {fuel : ℕ} {m m' : PropertyMap} {a b key val : Text}

/-- The loop over `a%p{key}b` is the one over the argument taken apart, if that stays short with the value. -/
theorem formatLoop_reference (ha : '%' ∉ a)
    (hlen : (a ++ '%' :: 'p' :: '{' :: (key ++ '}' :: b)).length < 2 ^ 31)
    (h : host.Fits get (fun _ _ => True) (fuel + 1) m a ('%' :: 'p' :: '{' :: (key ++ '}' :: b))) :
    host.formatLoop get (fuel + 1) m (a ++ '%' :: 'p' :: '{' :: (key ++ '}' :: b)) 0 =
      host.expand get (fuel + 1) m a ('%' :: 'p' :: '{' :: (key ++ '}' :: b)) := by
  have hfits : host.Fits get (fun _ _ => True) (fuel + 1) m [] (a ++ '%' :: 'p' :: '{' :: (key ++ '}' :: b)) := by
    rw [Fits, (dropWhile_append_cons ha _).1, (dropWhile_append_cons ha _).2]
    rw [Fits, dropWhile_percent, takeWhile_percent, List.append_nil] at h
    exact ⟨hlen, h.2⟩
  have hloop := formatLoop_eq (fun _ _ _ => rfl) hfits
  rw [expand_append get (fuel + 1) m [] ha] at hloop
  exact hloop

/-- With the value that is found the loop goes on over it and `b`. -/
theorem formatLoop_found (ha : '%' ∉ a) (hkey : '}' ∉ key) (hget : get m (trimString key ' ') = some (.ok val, m'))
    (hlen : (a ++ '%' :: 'p' :: '{' :: (key ++ '}' :: b)).length < 2 ^ 31)
    (hshort : host.Short a.length (trimString val '\'' ++ b))
    (hcalm : host.calm (trimString val '\'' ++ b) = true) :
    host.formatLoop get (fuel + 1) m (a ++ '%' :: 'p' :: '{' :: (key ++ '}' :: b)) 0 =
      host.expand get fuel m' a (trimString val '\'' ++ b) := by
  have hfits : host.Fits get (fun _ _ => True) (fuel + 1) m a ('%' :: 'p' :: '{' :: (key ++ '}' :: b)) := by
    rw [Fits, dropWhile_percent, takeWhile_percent, List.append_nil]
    refine ⟨hlen, ?_⟩
    simp only [directive_reference hkey, hget]
    exact ⟨trivial, fits_of_short get fuel m' hcalm hshort⟩
  rw [formatLoop_reference ha hlen hfits, expand, dropWhile_percent, takeWhile_percent, List.append_nil]
  simp only [directive_reference hkey, hget]

/-- A lookup that does not end keeps the loop from ending. -/
theorem formatLoop_unanswered (ha : '%' ∉ a) (hkey : '}' ∉ key) (hget : get m (trimString key ' ') = none)
    (hlen : (a ++ '%' :: 'p' :: '{' :: (key ++ '}' :: b)).length < 2 ^ 31) :
    host.formatLoop get (fuel + 1) m (a ++ '%' :: 'p' :: '{' :: (key ++ '}' :: b)) 0 = none := by
  have hfits : host.Fits get (fun _ _ => True) (fuel + 1) m a ('%' :: 'p' :: '{' :: (key ++ '}' :: b)) := by
    rw [Fits, dropWhile_percent, takeWhile_percent, List.append_nil]
    refine ⟨hlen, ?_⟩
    simp only [directive_reference hkey, hget]
    exact ⟨trivial, trivial⟩
  rw [formatLoop_reference ha hlen hfits, expand, dropWhile_percent, takeWhile_percent, List.append_nil]
  simp only [directive_reference hkey, hget]

end Reference

variable (host) in
/-- The argument `a%p{key}b` comes out with `value` in it. -/
def Substitutes (m : PropertyMap) (a key b value : Text) : Prop :=
  ∃ fuel m', host.formatLoop (host.look fuel) fuel m (a ++ '%' :: 'p' :: '{' :: (key ++ '}' :: b)) 0 =
    some (a ++ value ++ b, m')

theorem look_trim (fuel : ℕ) (m : PropertyMap) (key : Text) :
    host.look fuel m (trimString key ' ') = host.getProperty fuel m key true := by
  rw [look, getProperty, getProperty, trimString_of_tidy (trimString_tidy key ' ')]

section Substitutes

variable {m m' : PropertyMap} {a b key val : Text}

theorem substitutes_of_literal (ha : '%' ∉ a) (hkey : '}' ∉ key)
    (hval : ∃ fuel, host.getProperty fuel m key true = some (.ok val, m'))
    (hlen : (a ++ '%' :: 'p' :: '{' :: (key ++ '}' :: b)).length < 2 ^ 31)
    (hshort : host.Short a.length (trimString val '\'' ++ b)) (h : literal (trimString val '\'' ++ b) = true) :
    host.Substitutes m a key b (trimString val '\'') := by
  obtain ⟨fuel, hval⟩ := hval
  obtain ⟨n, hfuel, hn⟩ : ∃ n, fuel ≤ n + 1 ∧ (trimString val '\'' ++ b).length < n :=
    ⟨fuel + (trimString val '\'' ++ b).length + 1, by omega, by omega⟩
  have hcalm : host.calm (trimString val '\'' ++ b) = true := calm_of_literal h
  have hget : host.look (n + 1) m (trimString key ' ') = some (.ok val, m') := by
    rw [look_trim]
    exact getAt_mono hfuel hval
  refine ⟨n + 1, m', ?_⟩
  rw [formatLoop_found ha hkey hget hlen hshort hcalm, expand_pass host _ m' a hn hcalm, pass_of_literal h,
    List.append_assoc]

theorem literal_of_substitutes (hplain : '%' ∉ host.hostname) (ha : '%' ∉ a) (hkey : '}' ∉ key)
    (hval : ∃ fuel, host.getProperty fuel m key true = some (.ok val, m'))
    (hlen : (a ++ '%' :: 'p' :: '{' :: (key ++ '}' :: b)).length < 2 ^ 31)
    (hshort : host.Short a.length (trimString val '\'' ++ b)) (hrefers : unreferring (trimString val '\'' ++ b) = true)
    (h : host.Substitutes m a key b (trimString val '\'')) : literal (trimString val '\'' ++ b) = true := by
  obtain ⟨fuel, hval⟩ := hval
  obtain ⟨n, m'', hloop⟩ := h
  cases n with
  | zero => exact absurd hloop (by simp [formatLoop])
  | succ n =>
    cases hget : host.look (n + 1) m (trimString key ' ') with
    | none =>
      rw [formatLoop_unanswered ha hkey hget hlen] at hloop
      cases hloop
    | some found =>
      have hsame : found = (.ok val, m') := by
        rw [look_trim] at hget
        exact (getAt_steady m (trimString key ' ') true).unique hget hval
      subst hsame
      have hcalm := calm_of_unreferring hplain hrefers
      rw [formatLoop_found ha hkey hget hlen hshort hcalm] at hloop
      have hpass := expand_pass host (host.look (n + 1)) m' a (Nat.lt_succ_self _) hcalm
      have hout := (expand_steady _ m' a _).unique hloop hpass
      rw [Prod.mk.injEq, List.append_assoc, List.append_cancel_left_eq] at hout
      exact (literal_iff hplain _).mp hout.1.symm

/-- **Substitution.**  The value of a property comes out as it is if no `%` that is met in it, followed by `b`, begins a
format; and only then, where the name of the host has no `%`, unless it refers to another property there. -/
theorem property_comes_out (host : Host) (m m' : PropertyMap) (a b key val : Text) (ha : '%' ∉ a) (hkey : '}' ∉ key)
    (hval : ∃ fuel, host.getProperty fuel m key true = some (.ok val, m'))
    (hlen : (a ++ '%' :: 'p' :: '{' :: (key ++ '}' :: b)).length < 2 ^ 31)
    (hshort : host.Short a.length (trimString val '\'' ++ b)) :
    (literal (trimString val '\'' ++ b) = true → host.Substitutes m a key b (trimString val '\'')) ∧
    ('%' ∉ host.hostname → unreferring (trimString val '\'' ++ b) = true →
      host.Substitutes m a key b (trimString val '\'') → literal (trimString val '\'' ++ b) = true) :=
  ⟨fun h => substitutes_of_literal ha hkey hval hlen hshort h,
    fun hplain hrefers h => literal_of_substitutes hplain ha hkey hval hlen hshort hrefers h⟩

/-- `A` is `5%%`, of which `get_property` makes `5%`. -/
theorem property_comes_out_one : bareHost.Substitutes [(['A'], ['5', '%', '%'])] ['a'] ['A'] ['b'] ['5', '%'] :=
  (property_comes_out bareHost [(['A'], ['5', '%', '%'])] [(['A'], ['5', '%', '%'])] ['a'] ['b'] ['A'] ['5', '%']
    (by decide) (by decide) ⟨3, by decide⟩ (by decide) (short_of_inits (by decide))).1 (by decide)

/-- `A` is `%%%%`, of which `get_property` makes `%%`. -/
theorem property_comes_out_fails : ¬ ∀ (host : Host) (m m' : PropertyMap) (a b key val : Text), '%' ∉ a → '%' ∉ b →
    '}' ∉ key → (∃ fuel, host.getProperty fuel m key true = some (.ok val, m')) →
    host.Substitutes m a key b (trimString val '\'') := by
  intro h
  have hval : bareHost.getProperty 4 [(['A'], ['%', '%', '%', '%'])] ['A'] true =
      some (.ok ['%', '%'], [(['A'], ['%', '%', '%', '%'])]) := by decide
  have hsubst := h bareHost _ _ [] [] ['A'] ['%', '%'] (by decide) (by decide) (by decide) ⟨4, hval⟩
  have hliteral := literal_of_substitutes (by decide) (by decide) (by decide) ⟨4, hval⟩ (by decide)
    (short_of_inits (by decide)) (by decide) hsubst
  revert hliteral
  decide

end Substitutes

end Host

end Lasagne.Daf
