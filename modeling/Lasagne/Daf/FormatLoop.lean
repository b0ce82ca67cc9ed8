import Lasagne.Daf.Expansion

/-!
# Lasagne.Daf.FormatLoop — the loop of `DAF::format_args`, with its positions

As long as the argument is shorter than 2^31 characters the loop does what `Host.expand` does with the argument taken
apart where it is, and so do the lookups that it makes.

* `formatLoop_eq` : the loop over positions is the one over the argument taken apart, while the argument stays short;
* `getAt_eq`, `formatEach_eq` : a lookup, and a call, come to what they are for while all the texts stay short.
-/

namespace Lasagne.Daf

/-! ## Editing behind what has been passed -/

section Editing

variable (pre s text : Text) (k n : ℕ)

theorem charAt_append : charAt (pre ++ s) (pre.length + k) = charAt s k := by
  unfold charAt
  rw [List.getD_append_right _ _ _ _ (Nat.le_add_right _ _), Nat.add_sub_cancel_left]

theorem eraseAt_append : eraseAt (pre ++ s) (pre.length + k) n = pre ++ eraseAt s k n := by
  unfold eraseAt
  rw [Nat.add_assoc, List.take_length_add_append, List.drop_length_add_append, List.append_assoc]

theorem insertAt_append : insertAt (pre ++ s) (pre.length + k) text = pre ++ insertAt s k text := by
  unfold insertAt
  rw [List.take_length_add_append, List.drop_length_add_append, List.append_assoc]

end Editing

/-! ## One round -/

/-- What the `switch` comes to behind `pre` and a `%` is what the directive says. -/
def Directive.Agrees (pre : Text) : Directive → Switched → Prop
  | .keep out rest, .next arg pos =>
    arg = pre ++ (out ++ rest) ∧ (pos = pre.length + out.length ∨ rest = [] ∧ arg.length ≤ pos)
  | .insert text rest, .put text' arg pos =>
    text' = text ∧ pos = pre.length + 2 ∧ ∃ a b, arg = pre ++ a :: b :: rest
  | .property ident _, .ask prop plen pos => prop = ident ∧ plen = ident.length ∧ pos = pre.length + 2
  | _, _ => False

namespace Directive.Agrees

variable {pre out text ident rest : Text} {switched : Switched}

theorem of_keep (h : (Directive.keep out rest).Agrees pre switched) :
    ∃ pos, switched = .next (pre ++ (out ++ rest)) pos ∧
      (pos = pre.length + out.length ∨ rest = [] ∧ (pre ++ (out ++ rest)).length ≤ pos) := by
  cases switched with
  | next arg pos =>
    obtain ⟨rfl, hpos⟩ := h
    exact ⟨pos, rfl, hpos⟩
  | put => exact h.elim
  | ask => exact h.elim

theorem of_insert (h : (Directive.insert text rest).Agrees pre switched) :
    ∃ a b, switched = .put text (pre ++ a :: b :: rest) (pre.length + 2) := by
  cases switched with
  | next => exact h.elim
  | put text' arg pos =>
    obtain ⟨rfl, rfl, a, b, rfl⟩ := h
    exact ⟨a, b, rfl⟩
  | ask => exact h.elim

theorem of_property (h : (Directive.property ident rest).Agrees pre switched) :
    switched = .ask ident ident.length (pre.length + 2) := by
  cases switched with
  | next => exact h.elim
  | put => exact h.elim
  | ask prop plen pos =>
    obtain ⟨rfl, rfl, rfl⟩ := h
    rfl

end Directive.Agrees

namespace Host

variable {host : Host}

theorem charAt_one (pre : Text) (c : Char) (rest : Text) : charAt (pre ++ '%' :: c :: rest) (pre.length + 1) = c := by
  rw [charAt_append]
  rfl

theorem charAt_two (pre : Text) (c d : Char) (rest : Text) :
    charAt (pre ++ '%' :: c :: d :: rest) (pre.length + 1 + 1) = d := by
  rw [Nat.add_assoc, charAt_append]
  rfl

theorem eraseAt_two (pre : Text) (c d : Char) (rest : Text) :
    eraseAt (pre ++ '%' :: c :: d :: rest) (pre.length + 1 + 1) 1 = pre ++ '%' :: c :: rest := by
  rw [Nat.add_assoc, eraseAt_append]
  rfl

/-- `int(arg.length()) > pos`, behind a `%` and the character after it. -/
theorem longer_iff {pre rest : Text} {c : Char} (hlen : (pre ++ '%' :: c :: rest).length < 2 ^ 31) :
    toInt (pre ++ '%' :: c :: rest).length > (pre.length + 1 + 1 : ℕ) ↔ rest ≠ [] := by
  rw [toInt_eq_iff.mpr hlen, List.length_append, List.length_cons, List.length_cons, ← List.length_pos_iff]
  omega

theorem agrees_insert (pre text : Text) (a b : Char) (rest : Text) :
    (Directive.insert text rest).Agrees pre (.put text (pre ++ a :: b :: rest) (pre.length + 1 + 1)) :=
  ⟨rfl, rfl, a, b, rfl⟩

/-- Where the `}` behind a `%p{` is found. -/
theorem intFind_brace {pre x y : Text} (hx : '}' ∉ x)
    (hlen : (pre ++ '%' :: 'p' :: '{' :: (x ++ '}' :: y)).length < 2 ^ 31) :
    intFind (pre ++ '%' :: 'p' :: '{' :: (x ++ '}' :: y)) '}' (pre.length + 1 + 1) =
      (pre.length + 1 + 1 + (x.length + 1) : ℕ) := by
  have hdrop : (pre ++ '%' :: 'p' :: '{' :: (x ++ '}' :: y)).drop (pre.length + 1 + 1) = ('{' :: x) ++ '}' :: y := by
    rw [Nat.add_assoc, List.drop_length_add_append]
    rfl
  have hx' : '}' ∉ '{' :: x := by simp [hx]
  unfold intFind
  rw [hdrop, if_pos (by simp), List.idxOf_append_of_notMem hx', List.idxOf_cons_self]
  refine toInt_eq_iff.mpr ?_
  simp only [List.length_append, List.length_cons] at hlen ⊢
  omega

theorem switch_reference {pre x y : Text} (hx : '}' ∉ x)
    (hlen : (pre ++ '%' :: 'p' :: '{' :: (x ++ '}' :: y)).length < 2 ^ 31) :
    host.switch (pre ++ '%' :: 'p' :: '{' :: (x ++ '}' :: y)) (pre.length + 1) =
      .ask x x.length (pre.length + 1 + 1) := by
  have htest : toInt (pre ++ '%' :: 'p' :: '{' :: (x ++ '}' :: y)).length > (pre.length + 1 + 1 : ℕ) ∧
      charAt (pre ++ '%' :: 'p' :: '{' :: (x ++ '}' :: y)) (pre.length + 1 + 1) = '{' :=
    ⟨(longer_iff hlen).mpr (by simp), charAt_two ..⟩
  have hbehind : ((pre.length + 1 + 1 + (x.length + 1) : ℕ) : ℤ) > (pre.length + 1 + 1 : ℕ) := by omega
  have hplen : (((pre.length + 1 + 1 + (x.length + 1) : ℕ) : ℤ) - 1 - (pre.length + 1 + 1 : ℕ)).toNat = x.length := by
    omega
  have hprop : ((pre ++ '%' :: 'p' :: '{' :: (x ++ '}' :: y)).drop (pre.length + 1 + 1 + 1)).take x.length = x := by
    simp [Nat.add_assoc]
  simp only [switch, charAt_one, if_pos htest, intFind_brace hx hlen, if_pos hbehind, hplen, hprop]

/-- A `%p{` without a `}` is not looked at further. -/
theorem switch_unclosed {pre body : Text} (hbrace : '}' ∉ body)
    (hlen : (pre ++ '%' :: 'p' :: '{' :: body).length < 2 ^ 31) :
    host.switch (pre ++ '%' :: 'p' :: '{' :: body) (pre.length + 1) =
      .put [] (pre ++ '%' :: 'p' :: '{' :: body) (pre.length + 1 + 1) := by
  have hlpos : intFind (pre ++ '%' :: 'p' :: '{' :: body) '}' (pre.length + 1 + 1) = -1 := by
    refine if_neg ?_
    rw [Nat.add_assoc, List.drop_length_add_append]
    simpa using hbrace
  have htest : toInt (pre ++ '%' :: 'p' :: '{' :: body).length > (pre.length + 1 + 1 : ℕ) ∧
      charAt (pre ++ '%' :: 'p' :: '{' :: body) (pre.length + 1 + 1) = '{' :=
    ⟨(longer_iff hlen).mpr (by simp), charAt_two ..⟩
  have hbefore : ¬ (-1 : ℤ) > (pre.length + 1 + 1 : ℕ) := by omega
  simp only [switch, charAt_one, if_pos htest, hlpos, if_neg hbefore]

/-- Nor is a `%p` without a `{`. -/
theorem switch_unopened {pre rest : Text} (hne : ∀ body, rest ≠ '{' :: body)
    (hlen : (pre ++ '%' :: 'p' :: rest).length < 2 ^ 31) :
    host.switch (pre ++ '%' :: 'p' :: rest) (pre.length + 1) =
      .put [] (pre ++ '%' :: 'p' :: rest) (pre.length + 1 + 1) := by
  have htest : ¬ (toInt (pre ++ '%' :: 'p' :: rest).length > (pre.length + 1 + 1 : ℕ) ∧
      charAt (pre ++ '%' :: 'p' :: rest) (pre.length + 1 + 1) = '{') := by
    rintro ⟨hlong, hc⟩
    obtain ⟨d, rest, rfl⟩ := List.exists_cons_of_ne_nil ((longer_iff hlen).mp hlong)
    rw [charAt_two] at hc
    exact hne rest (by rw [hc])
  simp only [switch, charAt_one, if_neg htest]

variable (host) in
theorem switch_agrees {pre after : Text} (hlen : (pre ++ '%' :: after).length < 2 ^ 31) :
    (host.directive after).Agrees pre (host.switch (pre ++ '%' :: after) (pre.length + 1)) := by
  fun_cases Host.directive host after with
  | case1 =>
    have hc : charAt (pre ++ ['%']) (pre.length + 1) = '\x00' := by
      rw [charAt_append]
      rfl
    simp [switch, hc, Directive.Agrees]
  | case2 rest =>
    simp only [switch, charAt_one, Directive.Agrees]
    refine ⟨?_, Or.inl rfl⟩
    rw [Nat.add_sub_cancel, eraseAt_append]
    rfl
  | case6 body hbrace =>
    obtain ⟨x, y, rfl, hx⟩ := List.eq_append_cons_of_mem hbrace
    rw [switch_reference hx hlen, (dropWhile_append_cons hx y).2]
    exact ⟨rfl, rfl, rfl⟩
  | case7 body hbrace =>
    rw [switch_unclosed hbrace hlen]
    exact agrees_insert ..
  | case8 rest hne =>
    rw [switch_unopened (fun body h => hne body h) hlen]
    exact agrees_insert ..
  | case9 | case10 | case11 | case12 | case14 =>
    have hlong := (longer_iff hlen).mpr (List.cons_ne_nil _ _)
    simp only [switch, charAt_one, if_pos hlong, charAt_two, eraseAt_two]
    exact agrees_insert ..
  | case13 rest | case15 rest =>
    cases rest with
    | nil =>
      have hshort := mt (longer_iff hlen).mp (not_not.mpr rfl)
      simp only [switch, charAt_one, if_neg hshort]
      exact agrees_insert ..
    | cons d rest =>
      have hlong := (longer_iff hlen).mpr (List.cons_ne_nil _ _)
      simp only [switch, charAt_one, if_pos hlong, charAt_two]
      split <;> simp_all [agrees_insert]
  | case16 c rest =>
    have hnext : host.switch (pre ++ '%' :: c :: rest) (pre.length + 1) =
        .next (pre ++ '%' :: c :: rest) (pre.length + 1 + 1) := by
      simp only [switch, charAt_one]
    rw [hnext]
    exact ⟨rfl, Or.inl rfl⟩
  | _ =>
    simp only [switch, charAt_one]
    exact agrees_insert ..

/-! ## The whole loop -/

/-- Whenever the loop comes to a `%`, there are less than 2^31 characters; and `fits` of what it looks up. -/
def Fits (host : Host) (get : Lookup) (fits : PropertyMap → Text → Prop) : ℕ → PropertyMap → Text → Text → Prop
  | 0, _, _, _ => True
  | fuel + 1, m, done, rest =>
    match rest.dropWhile (· ≠ '%') with
    | [] => True
    | _ :: after =>
      (done ++ rest).length < 2 ^ 31 ∧
        let done := done ++ rest.takeWhile (· ≠ '%')
        match host.directive after with
        | .keep out rest => Fits host get fits fuel m (done ++ out) rest
        | .insert text rest => Fits host get fits fuel m done (text ++ rest)
        | .property ident rest =>
          fits m (trimString ident ' ') ∧
            match get m (trimString ident ' ') with
            | none => True
            | some (.ok val, m) => Fits host get fits fuel m done (trimString val '\'' ++ rest)
            | some (.error _, m) => Fits host get fits fuel m done ('{' :: ident ++ '}' :: rest)

theorem fits_of_notMem {get : Lookup} {fits : PropertyMap → Text → Prop} {fuel : ℕ} {m : PropertyMap}
    {done rest : Text} (h : '%' ∉ rest) : host.Fits get fits fuel m done rest := by
  cases fuel with
  | zero => trivial
  | succ fuel =>
    rw [Fits, dropWhile_of_notMem h]
    trivial

/-- The next `%`, where the argument is short. -/
theorem intFind_percent {done x after : Text} (hx : '%' ∉ x) (hlen : (done ++ (x ++ '%' :: after)).length < 2 ^ 31) :
    intFind (done ++ (x ++ '%' :: after)) '%' done.length = ((done ++ x).length : ℕ) := by
  unfold intFind
  rw [List.drop_left, if_pos (by simp), List.idxOf_append_of_notMem hx, List.idxOf_cons_self, List.length_append]
  refine toInt_eq_iff.mpr ?_
  simp only [List.length_append, List.length_cons] at hlen
  omega

theorem intFind_of_notMem {arg : Text} {c : Char} {pos : ℕ} (h : c ∉ arg.drop pos) : intFind arg c pos = -1 := if_neg h

/-- Where no `%` is left the loop ends. -/
theorem formatLoop_end (get : Lookup) (fuel : ℕ) (m : PropertyMap) {arg : Text} {pos : ℕ} (h : '%' ∉ arg.drop pos) :
    host.formatLoop get (fuel + 1) m arg pos = some (arg, m) := by
  rw [formatLoop, intFind_of_notMem h]
  rfl

/-- And past the end. -/
theorem formatLoop_past (get get' : Lookup) (fuel : ℕ) (m : PropertyMap) {arg : Text} {pos : ℕ} (h : arg.length ≤ pos) :
    host.formatLoop get fuel m arg pos = host.expand get' fuel m arg [] := by
  cases fuel with
  | zero => rfl
  | succ fuel =>
    rw [formatLoop_end get fuel m (by simp [List.drop_of_length_le h]), expand]
    simp

theorem putIn_append (text pre : Text) (a b : Char) (rest : Text) :
    putIn text (pre ++ a :: b :: rest) (pre.length + 2) = pre ++ (text ++ rest) := by
  have hpos : pre.length + 2 - 2 = pre.length + 0 := rfl
  unfold putIn
  rw [hpos, eraseAt_append, insertAt_append]
  rfl

theorem eraseAt_property (pre ident rest : Text) (a b : Char) :
    eraseAt (pre ++ a :: b :: '{' :: (ident ++ '}' :: rest)) (pre.length + 2) (ident.length + 2) =
      pre ++ a :: b :: rest := by
  have hbehind : (a :: b :: '{' :: (ident ++ '}' :: rest)).drop (2 + (ident.length + 2)) = rest := by
    rw [show 2 + (ident.length + 2) = ident.length + 1 + 3 by omega]
    simp
  rw [eraseAt_append, eraseAt, hbehind]
  rfl

/-- The loop over positions is the one over the argument taken apart, while the argument stays short. -/
theorem formatLoop_eq {get get' : Lookup} {fits : PropertyMap → Text → Prop}
    (hget : ∀ m ident, fits m ident → get' m ident = get m ident) {fuel : ℕ} {m : PropertyMap} {done rest : Text}
    (h : host.Fits get fits fuel m done rest) :
    host.formatLoop get' fuel m (done ++ rest) done.length = host.expand get fuel m done rest := by
  induction fuel generalizing m done rest with
  | zero => rfl
  | succ fuel ih =>
    by_cases hp : '%' ∈ rest
    · obtain ⟨x, after, rfl, hx⟩ := List.eq_append_cons_of_mem hp
      rw [Fits, (dropWhile_append_cons hx _).1, (dropWhile_append_cons hx _).2] at h
      obtain ⟨hlen, h⟩ := h
      have hlen' : (done ++ x ++ '%' :: after).length < 2 ^ 31 := by rwa [List.append_assoc]
      have hagrees := switch_agrees host hlen'
      have hbehind : toInt (done ++ x ++ '%' :: after).length > ((done ++ x).length : ℕ) := by
        rw [toInt_eq_iff.mpr hlen', List.length_append, List.length_cons]
        omega
      have hstays : ¬ (((done ++ x).length : ℕ) : ℤ) < 0 := by omega
      rw [expand, (dropWhile_append_cons hx _).1, (dropWhile_append_cons hx _).2, formatLoop,
        intFind_percent hx hlen, if_neg hstays, Int.toNat_natCast, ← List.append_assoc, if_pos hbehind]
      dsimp only at h ⊢
      cases hd : host.directive after with
      | keep out rest =>
        rw [hd] at hagrees h
        obtain ⟨pos, hs, hpos⟩ := hagrees.of_keep
        rw [hs]
        dsimp only at h ⊢
        rcases hpos with rfl | ⟨rfl, hpos⟩
        · have hpos : (done ++ x).length + out.length = (done ++ x ++ out).length := List.length_append.symm
          rw [hpos, ← List.append_assoc (done ++ x) out rest, ih h]
        · -- behind a last `%` there is nothing to look for
          rw [formatLoop_past get' get fuel m hpos, List.append_nil, List.append_assoc]
      | insert text rest =>
        rw [hd] at hagrees h
        obtain ⟨a, b, hs⟩ := hagrees.of_insert
        rw [hs]
        dsimp only at h ⊢
        rw [putIn_append, ← ih h]
        rfl
      | property ident rest =>
        obtain ⟨_, rfl⟩ := directive_property hd
        rw [hd] at hagrees h
        have hs := hagrees.of_property
        rw [hs]
        dsimp only at h ⊢
        obtain ⟨hfits, h⟩ := h
        rw [hget _ _ hfits]
        cases hfound : get m (trimString ident ' ') with
        | none => rfl
        | some found =>
          obtain ⟨e | val, m'⟩ := found
          · rw [hfound] at h
            dsimp only at h ⊢
            rw [putIn_append]
            exact ih h
          · rw [hfound] at h
            dsimp only at h ⊢
            rw [eraseAt_property, putIn_append]
            exact ih h
    · have hnil := dropWhile_of_notMem hp
      rw [expand, hnil, formatLoop_end get' fuel m (by rwa [List.drop_left])]

/-! ## Lookups -/

/-- `fits` of every argument, where the loop comes to it. -/
def FitsEach (loop : PropertyMap → Text → Option (Text × PropertyMap)) (fits : PropertyMap → Text → Prop) :
    PropertyMap → List Text → Prop
  | _, [] => True
  | m, arg :: args =>
    fits m arg ∧
      match loop m arg with
      | none => True
      | some (_, m) => FitsEach loop fits m args

variable (host) in
/-- The texts stay short while the value of a key is formatted, as far as the fuel goes. -/
def FitsAt : ℕ → PropertyMap → Text → Bool → Prop
  | 0, _, _, _ => True
  | fuel + 1, m, key, useEnv =>
    match host.value m key useEnv with
    | none => True
    | some (val, useEnv, m) =>
      FitsEach (host.expand (host.expandRef fuel) fuel · [] ·)
        (host.Fits (host.expandRef fuel) (fun m ident => FitsAt fuel m (trimString ident ' ') true) fuel · [] ·) m
        (host.argv useEnv val)

variable (host) in
/-- Whenever the expansion of `args` comes to a `%`, in one of them or in a value that it formats, the text there has
less than 2^31 characters. -/
def StaysShort (m : PropertyMap) (args : List Text) : Prop :=
  ∀ fuel, FitsEach (host.expand (host.expandRef fuel) fuel · [] ·)
    (host.Fits (host.expandRef fuel) (fun m ident => host.FitsAt fuel m (trimString ident ' ') true) fuel · [] ·) m args

/-- Without a `%` nothing is put in. -/
theorem staysShort_of_notMem (m : PropertyMap) {args : List Text} (h : ∀ arg ∈ args, '%' ∉ arg) :
    host.StaysShort m args := by
  intro fuel
  induction args generalizing m with
  | nil => trivial
  | cons arg args ih =>
    refine ⟨fits_of_notMem (h arg List.mem_cons_self), ?_⟩
    split
    · trivial
    · next m' _ => exact ih m' fun a ha => h a (List.mem_cons_of_mem _ ha)

theorem formatEach_eq_of_fits {loop loop' : PropertyMap → Text → Option (Text × PropertyMap)}
    {fits : PropertyMap → Text → Prop} (hloop : ∀ m arg, fits m arg → loop' m arg = loop m arg) {m : PropertyMap}
    {args : List Text} (h : FitsEach loop fits m args) : formatEach loop' m args = formatEach loop m args := by
  induction args generalizing m with
  | nil => rfl
  | cons arg args ih =>
    obtain ⟨harg, hargs⟩ := h
    rw [formatEach, formatEach, hloop m arg harg]
    cases hl : loop m arg with
    | none => rfl
    | some r =>
      rw [hl] at hargs
      dsimp only
      rw [ih hargs]

/-- One call, while the texts stay short. -/
theorem formatLoop_eq_of_fits {get get' : Lookup} {fits : PropertyMap → Text → Prop}
    (hget : ∀ m ident, fits m ident → get' m ident = get m ident) {fuel : ℕ} {m : PropertyMap} {args : List Text}
    (h : FitsEach (host.expand get fuel · [] ·) (host.Fits get fits fuel · [] ·) m args) :
    formatEach (host.formatLoop get' fuel · · 0) m args = formatEach (host.expand get fuel · [] ·) m args :=
  formatEach_eq_of_fits (fun _ _ harg => formatLoop_eq hget harg) h

theorem getAt_eq {fuel : ℕ} {m : PropertyMap} {key : Text} {useEnv : Bool} (h : host.FitsAt fuel m key useEnv) :
    host.getAt fuel m key useEnv = host.expandAt fuel m key useEnv := by
  induction fuel generalizing m key useEnv with
  | zero => rfl
  | succ fuel ih =>
    rw [getAt, expandAt]
    rw [FitsAt] at h
    by_cases hkey : key = []
    · rw [if_pos hkey, if_pos hkey]
    · rw [if_neg hkey, if_neg hkey]
      cases hval : host.value m key useEnv with
      | none => rfl
      | some v =>
        obtain ⟨val, sub, m'⟩ := v
        rw [hval] at h
        dsimp only at h ⊢
        unfold formatWith
        rw [formatLoop_eq_of_fits (fun m ident hfits => ih hfits) h]

/-- A call comes to what it is for, while the texts stay short. -/
theorem formatEach_eq {m : PropertyMap} {args : List Text} (h : host.StaysShort m args) (fuel : ℕ) :
    formatEach (host.formatLoop (host.look fuel) fuel · · 0) m args = host.expandEach fuel m args :=
  formatLoop_eq_of_fits (fun _ _ hfits => getAt_eq hfits) (h fuel)

end Host

end Lasagne.Daf
