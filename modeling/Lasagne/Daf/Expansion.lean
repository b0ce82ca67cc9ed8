import Lasagne.Daf.FormatArgs

/-!
# Lasagne.Daf.Expansion — what the expansion of a text comes to, whatever stands behind it

`Host.expand` says what the loop of `format_args` is for: the argument is taken apart where the loop is, and there is no
position that could overflow.  `format_args` reads what it has put in again, together with what stands behind it.  Here a
text is read on its own: as far as it decides by itself what becomes of it (`Reads`), and with the lookups that are met
on the way (`Meets`).

* `expand_append` : what the loop has passed is never looked at again;
* `Reads.run` : a text that can be read on its own is used up by the loop, whatever stands behind it;
* `expand_of_no_brace` : and what is left of it holds no reference;
* `Reads.unique` : there is one way to read it.
-/

namespace Lasagne.Daf

open Lasagne.Trans

/-! ## The loop, without positions -/

/-- What becomes of a `%` and the text after it. -/
inductive Directive
  /-- `out` stays as it is, and `pos` is behind it -/
  | keep (out rest : Text)
  /-- `text` is put in, and `pos` is before it -/
  | insert (text rest : Text)
  /-- `%p{ident}` -/
  | property (ident rest : Text)
  deriving DecidableEq, Repr

section Model

variable (host : Host)

/-- The `switch`, by the text after the `%`: a format that is not well formed loses its two characters. -/
def Host.directive : Text → Directive
  | [] => .keep ['%'] []
  | '%' :: rest => .keep ['%'] rest
  | 'H' :: rest => .insert host.hostname rest
  | 't' :: rest => .insert host.threadId rest
  | 'P' :: rest => .insert host.processId rest
  | 'p' :: '{' :: body =>
    if '}' ∈ body then .property (body.takeWhile (· ≠ '}')) (body.dropWhile (· ≠ '}')).tail
    else .insert [] ('{' :: body)
  | 'p' :: rest => .insert [] rest
  | 'D' :: 'g' :: rest => .insert (host.gmTime false) rest
  | 'D' :: 'G' :: rest => .insert (host.gmTime true) rest
  | 'D' :: 'l' :: rest => .insert (host.localTime false) rest
  | 'D' :: 'L' :: rest => .insert (host.localTime true) rest
  | 'D' :: rest => .insert [] rest
  | 'T' :: 'u' :: rest => .insert host.utcTime rest
  | 'T' :: rest => .insert [] rest
  | c :: rest => .keep ['%', c] rest

/-- The loop over one argument, with what is behind it and what is before it; `get` is `DAF::get_property`. -/
def Host.expand (get : Lookup) : ℕ → PropertyMap → Text → Text → Option (Text × PropertyMap)
  | 0, _, _, _ => none
  | fuel + 1, m, done, rest =>
    match rest.dropWhile (· ≠ '%') with
    | [] => some (done ++ rest, m)
    | _ :: after =>
      let done := done ++ rest.takeWhile (· ≠ '%')
      match host.directive after with
      | .keep out rest => expand get fuel m (done ++ out) rest
      | .insert text rest => expand get fuel m done (text ++ rest)
      | .property ident rest =>
        match get m (trimString ident ' ') with
        | none => none
        | some (.ok val, m) => expand get fuel m done (trimString val '\'' ++ rest)
        -- the `IllegalArgumentException` is caught here, and only the `%p` is lost
        | some (.error _, m) => expand get fuel m done ('{' :: ident ++ '}' :: rest)

/-- `get_property` of a key, on this loop. -/
def Host.expandAt : ℕ → PropertyMap → Text → Bool → Option (Except PropertyError Text × PropertyMap)
  | 0, _, _, _ => none
  | fuel + 1, m, key, useEnv =>
    if key = [] then some (.error .illegalProperty, m)
    else
      match host.value m key useEnv with
      | none => some (.error .notFound, m)
      | some (val, useEnv, m) =>
        (host.formatWith (host.expand (fun m ident => expandAt fuel m (trimString ident ' ') true) fuel · [] ·) m val
          useEnv true).map fun (text, m) => (.ok text, m)

/-- As `format_args` calls it. -/
def Host.expandRef (fuel : ℕ) : Lookup := fun m ident => host.expandAt fuel m (trimString ident ' ') true

/-- The arguments of one call. -/
def Host.expandEach (fuel : ℕ) (m : PropertyMap) (args : List Text) : Option (List Text × PropertyMap) :=
  formatEach (host.expand (host.expandRef fuel) fuel · [] ·) m args

end Model

namespace Host

variable {host : Host}

/-- The loop passes over what has no `%`, and never looks at it again. -/
theorem expand_append (get : Lookup) (fuel : ℕ) (m : PropertyMap) (done : Text) {x : Text} (hx : '%' ∉ x) (y : Text) :
    host.expand get fuel m done (x ++ y) = host.expand get fuel m (done ++ x) y := by
  cases fuel with
  | zero => rfl
  | succ fuel =>
    rw [expand, expand, (dropWhile_append hx y).1, (dropWhile_append hx y).2]
    simp only [List.append_assoc]

/-- More fuel changes no result of the loop. -/
theorem expand_mono {get get' : Lookup} (hget : ∀ m ident r, get m ident = some r → get' m ident = some r)
    {fuel fuel' : ℕ} (hfuel : fuel ≤ fuel') {m : PropertyMap} {done rest : Text} {r : Text × PropertyMap}
    (h : host.expand get fuel m done rest = some r) : host.expand get' fuel' m done rest = some r := by
  induction fuel generalizing fuel' m done rest with
  | zero => exact absurd h (by simp [expand])
  | succ fuel ih =>
    obtain ⟨fuel', rfl⟩ := Nat.exists_eq_add_of_le' hfuel
    have hle : fuel ≤ fuel' + fuel := by omega
    change host.expand get' (fuel' + fuel + 1) m done rest = some r
    rw [expand] at h ⊢
    split at h
    · exact h
    · dsimp only at h ⊢
      split at h
      · exact ih hle h
      · exact ih hle h
      · split at h
        · exact absurd h (by simp)
        · next hg => rw [hget _ _ _ hg]; exact ih hle h
        · next hg => rw [hget _ _ _ hg]; exact ih hle h

theorem expand_steady (get : Lookup) (m : PropertyMap) (done rest : Text) :
    Steady fun fuel => host.expand get fuel m done rest :=
  fun _ _ hle _ => expand_mono (fun _ _ _ h => h) hle

/-- More fuel changes no result of a lookup. -/
theorem expandAt_mono {fuel fuel' : ℕ} (hfuel : fuel ≤ fuel') {m : PropertyMap} {key : Text} {useEnv : Bool}
    {r : Except PropertyError Text × PropertyMap} (h : host.expandAt fuel m key useEnv = some r) :
    host.expandAt fuel' m key useEnv = some r := by
  induction fuel generalizing fuel' m key useEnv r with
  | zero => exact absurd h (by simp [expandAt])
  | succ fuel ih =>
    obtain ⟨fuel', rfl⟩ := Nat.exists_eq_add_of_le' hfuel
    have hle : fuel ≤ fuel' + fuel := by omega
    change host.expandAt (fuel' + fuel + 1) m key useEnv = some r
    rw [expandAt] at h ⊢
    split at h
    · next hkey => rw [if_pos hkey]; exact h
    · next hkey =>
      rw [if_neg hkey]
      split at h
      · exact h
      · obtain ⟨rs, hrs, hr⟩ := Option.map_eq_some_iff.mp h
        exact Option.map_eq_some_iff.mpr
          ⟨rs, formatWith_mono (fun _ _ _ => expand_mono (fun _ _ _ hr => ih hle hr) hle) hrs, hr⟩

theorem expandAt_steady (m : PropertyMap) (key : Text) (useEnv : Bool) :
    Steady fun fuel => host.expandAt fuel m key useEnv :=
  fun _ _ hle _ => expandAt_mono hle

theorem expandRef_mono {fuel fuel' : ℕ} (hfuel : fuel ≤ fuel') (m : PropertyMap) (ident : Text)
    (r : Except PropertyError Text × PropertyMap) (h : host.expandRef fuel m ident = some r) :
    host.expandRef fuel' m ident = some r := expandAt_mono hfuel h

theorem expandEach_mono {fuel fuel' : ℕ} (hfuel : fuel ≤ fuel') {m : PropertyMap} {args : List Text}
    {r : List Text × PropertyMap} (h : host.expandEach fuel m args = some r) : host.expandEach fuel' m args = some r :=
  formatEach_mono (fun _ _ _ => expand_mono (expandRef_mono hfuel) hfuel) h

end Host

/-! ## What a text decides on its own -/

/-- The text after a `%` decides what becomes of it, whatever stands behind. -/
def settled : Text → Bool
  | [] => false
  | ['p'] => false
  | 'p' :: '{' :: body => decide ('}' ∈ body)
  | ['D'] => false
  | ['T'] => false
  | _ => true

/-- The directive with more text behind it. -/
def Directive.append : Directive → Text → Directive
  | .keep out rest, v => .keep out (rest ++ v)
  | .insert text rest, v => .insert text (rest ++ v)
  | .property ident rest, v => .property ident (rest ++ v)

theorem brace_of_not_settled {after : Text} (h : settled after = false) : '}' ∉ after := by
  fun_cases settled after <;> simp_all [settled]

namespace Host

variable {host : Host}

theorem directive_append {after : Text} (h : settled after = true) (v : Text) :
    host.directive (after ++ v) = (host.directive after).append v := by
  fun_cases Host.directive host after with
  | case1 => exact absurd h (by simp [settled])
  | case6 body hbrace =>
    obtain ⟨x, y, rfl, hx⟩ := List.eq_append_cons_of_mem hbrace
    have hmem : '}' ∈ x ++ '}' :: (y ++ v) := by simp
    simp only [List.cons_append, List.append_assoc, directive, if_pos hmem, (dropWhile_append_cons hx _).1,
      (dropWhile_append_cons hx _).2, List.tail_cons, Directive.append]
  | case7 body hbrace => exact absurd h (by simpa [settled] using hbrace)
  | case8 rest hne =>
    -- a character follows that is no brace
    cases rest with
    | nil => exact absurd h (by simp [settled])
    | cons c rest =>
      have hc : c ≠ '{' := fun hc => hne rest (by rw [hc])
      simp [directive, Directive.append, hc]
  | case13 rest hg hG hl hL =>
    cases rest with
    | nil => exact absurd h (by simp [settled])
    | cons c rest => simp_all [directive, Directive.append]
  | case15 rest hu =>
    cases rest with
    | nil => exact absurd h (by simp [settled])
    | cons c rest => simp_all [directive, Directive.append]
  | case16 c rest => simp_all [directive, Directive.append]
  | _ => rfl

theorem directive_keep {after out rest : Text} (h : host.directive after = .keep out rest) : rest <:+ after := by
  fun_cases Host.directive host after <;> simp_all [directive]

theorem directive_insert {after text rest : Text} (h : host.directive after = .insert text rest) : rest <:+ after := by
  have hbehind : ∀ (a b : Char) (s : Text), s <:+ a :: b :: s := fun a b s => ⟨[a, b], rfl⟩
  fun_cases Host.directive host after <;> simp_all [directive]

/-- What is put in is not a format, if the name of the host is none. -/
theorem plain_of_insert (hplain : '%' ∉ host.hostname) {after text rest : Text}
    (h : host.directive after = .insert text rest) : '%' ∉ text := by
  have hnumber := And.intro host.threadId_plain host.processId_plain
  have htime := And.intro host.gmTime_plain (And.intro host.localTime_plain host.utcTime_plain)
  fun_cases Host.directive host after <;> simp_all [directive]

theorem directive_property {after ident rest : Text} (h : host.directive after = .property ident rest) :
    '}' ∉ ident ∧ after = 'p' :: '{' :: (ident ++ '}' :: rest) := by
  fun_cases Host.directive host after with
  | case6 body hbrace =>
    obtain ⟨x, y, rfl, hx⟩ := List.eq_append_cons_of_mem hbrace
    simp only [directive, if_pos hbrace, (dropWhile_append_cons hx _).1, (dropWhile_append_cons hx _).2,
      List.tail_cons, Directive.property.injEq] at h
    obtain ⟨rfl, rfl⟩ := h
    exact ⟨hx, rfl⟩
  | _ => simp_all [directive]

variable (host) in
/-- What becomes of the first `%` of a text, if the text decides it. -/
def within (t : Text) : Option Directive :=
  match t.dropWhile (· ≠ '%') with
  | [] => none
  | _ :: after => if settled after then some (host.directive after) else none

theorem within_eq_some {t : Text} {d : Directive} (h : host.within t = some d) :
    ∃ x after, t = x ++ '%' :: after ∧ '%' ∉ x ∧ settled after = true ∧ host.directive after = d := by
  by_cases ht : '%' ∈ t
  · obtain ⟨x, after, rfl, hx⟩ := List.eq_append_cons_of_mem ht
    unfold within at h
    rw [(dropWhile_append_cons hx after).1] at h
    dsimp only at h
    split at h
    · next hs => exact ⟨x, after, rfl, hx, hs, Option.some.inj h⟩
    · simp at h
  · unfold within at h
    have hnil := dropWhile_of_notMem ht
    rw [hnil] at h
    simp at h

/-- What a text leaves undecided has no closing brace. -/
theorem brace_of_within_none {t : Text} (h : host.within t = none) : '}' ∉ t.dropWhile (· ≠ '%') := by
  by_cases ht : '%' ∈ t
  · obtain ⟨x, after, rfl, hx⟩ := List.eq_append_cons_of_mem ht
    unfold within at h
    rw [(dropWhile_append_cons hx after).1] at h ⊢
    dsimp only at h
    split at h
    · simp at h
    · next hs =>
      have hbrace := brace_of_not_settled (by simpa using hs)
      simpa using hbrace
  · have hnil := dropWhile_of_notMem ht
    rw [hnil]
    simp

theorem dropWhile_percent (after : Text) : ('%' :: after).dropWhile (· ≠ '%') = '%' :: after := by simp

theorem takeWhile_percent (after : Text) : ('%' :: after).takeWhile (· ≠ '%') = [] := by simp

section Round

variable {t out text ident rest : Text} (get : Lookup) (fuel : ℕ) (m : PropertyMap) (done tail : Text)

/-- The loop comes to the first `%` of a text, with the directive that the text decides. -/
theorem expand_within {d : Directive} (h : host.within t = some d) :
    ∃ after, host.directive after = d.append tail ∧
      host.expand get (fuel + 1) m done (t ++ tail) =
        host.expand get (fuel + 1) m (done ++ t.takeWhile (· ≠ '%')) ('%' :: after) := by
  obtain ⟨x, after, rfl, hx, hs, rfl⟩ := within_eq_some h
  refine ⟨after ++ tail, directive_append hs tail, ?_⟩
  rw [List.append_assoc, List.cons_append, (dropWhile_append_cons hx _).2]
  exact expand_append get (fuel + 1) m done hx _

theorem expand_keep (h : host.within t = some (.keep out rest)) :
    host.expand get (fuel + 1) m done (t ++ tail) =
      host.expand get fuel m (done ++ t.takeWhile (· ≠ '%') ++ out) (rest ++ tail) := by
  obtain ⟨after, hdir, hround⟩ := expand_within get fuel m done tail h
  rw [hround, expand, dropWhile_percent, takeWhile_percent, List.append_nil]
  dsimp only
  rw [hdir, Directive.append]

theorem expand_insert (hplain : '%' ∉ host.hostname) (h : host.within t = some (.insert text rest)) :
    host.expand get (fuel + 1) m done (t ++ tail) =
      host.expand get fuel m (done ++ t.takeWhile (· ≠ '%') ++ text) (rest ++ tail) := by
  obtain ⟨_, settledAfter, _, _, _, hd⟩ := within_eq_some h
  obtain ⟨after, hdir, hround⟩ := expand_within get fuel m done tail h
  rw [hround, expand, dropWhile_percent, takeWhile_percent, List.append_nil]
  dsimp only
  rw [hdir, Directive.append]
  exact expand_append get fuel m _ (plain_of_insert hplain hd) (rest ++ tail)

variable {m get}

theorem expand_ok (h : host.within t = some (.property ident rest)) {val : Text} {m' : PropertyMap}
    (hget : get m (trimString ident ' ') = some (.ok val, m')) :
    host.expand get (fuel + 1) m done (t ++ tail) =
      host.expand get fuel m' (done ++ t.takeWhile (· ≠ '%')) (trimString val '\'' ++ (rest ++ tail)) := by
  obtain ⟨after, hdir, hround⟩ := expand_within get fuel m done tail h
  rw [hround, expand, dropWhile_percent, takeWhile_percent, List.append_nil]
  simp only [hdir, Directive.append, hget]

theorem expand_error (h : host.within t = some (.property ident rest)) {e : PropertyError} {m' : PropertyMap}
    (hget : get m (trimString ident ' ') = some (.error e, m')) :
    host.expand get (fuel + 1) m done (t ++ tail) =
      host.expand get fuel m' (done ++ t.takeWhile (· ≠ '%')) ('{' :: ident ++ '}' :: rest ++ tail) := by
  obtain ⟨after, hdir, hround⟩ := expand_within get fuel m done tail h
  rw [hround, expand, dropWhile_percent, takeWhile_percent, List.append_nil]
  simp only [hdir, Directive.append, hget, List.append_assoc, List.cons_append]

theorem expand_none (h : host.within t = some (.property ident rest))
    (hget : get m (trimString ident ' ') = none) : host.expand get (fuel + 1) m done (t ++ tail) = none := by
  obtain ⟨after, hdir, hround⟩ := expand_within get fuel m done tail h
  rw [hround, expand, dropWhile_percent, takeWhile_percent, List.append_nil]
  simp only [hdir, Directive.append, hget]

end Round

/-! ## Reading a text -/

/-- The key that a `%p{ident}` looks up: it is trimmed by `format_args`, and by `get_property`. -/
def keyOf (ident : Text) : Text := trimString (trimString ident ' ') ' '

variable (host) in
/-- There is no such property, and nothing in the environment to make one of. -/
def Unknown (m : PropertyMap) (key : Text) : Prop := key = [] ∨ host.value m key true = none

variable (host) in
/-- `text` is what stands in for `key`. -/
def Returns (m : PropertyMap) (key text : Text) (m' : PropertyMap) : Prop :=
  ∃ fuel, host.expandAt fuel m key true = some (.ok text, m')

variable (host) in
/-- Read on its own from the map `m`, `t` is used up down to `r`, which only what stands behind it can decide. -/
inductive Reads : PropertyMap → Text → Text → PropertyMap → Prop
  | spent {m : PropertyMap} {t : Text} (h : host.within t = none) : Reads m t (t.dropWhile (· ≠ '%')) m
  | keep {m m' : PropertyMap} {t out rest r : Text} (h : host.within t = some (.keep out rest))
      (hr : Reads m rest r m') : Reads m t r m'
  | insert {m m' : PropertyMap} {t text rest r : Text} (h : host.within t = some (.insert text rest))
      (hr : Reads m rest r m') : Reads m t r m'
  | unknown {m m' : PropertyMap} {t ident rest r : Text} (h : host.within t = some (.property ident rest))
      (hkey : host.Unknown m (keyOf ident)) (hr : Reads m ('{' :: ident ++ '}' :: rest) r m') : Reads m t r m'
  | stands {m m₁ m₂ m' : PropertyMap} {t ident rest text r₁ r : Text} (h : host.within t = some (.property ident rest))
      (hval : host.Returns m (keyOf ident) text m₁) (hin : Reads m₁ (trimString text '\'') r₁ m₂)
      (hr : Reads m₂ (r₁ ++ rest) r m') : Reads m t r m'

variable (host) in
/-- Read on its own from the map `m`, `t` comes to look up a key, in the map that there is then. -/
inductive Meets : PropertyMap → Text → PropertyMap × Text → Prop
  | here {m : PropertyMap} {t ident rest : Text} (h : host.within t = some (.property ident rest)) :
      Meets m t (m, keyOf ident)
  | keep {m : PropertyMap} {t out rest : Text} {n : PropertyMap × Text} (h : host.within t = some (.keep out rest))
      (hn : Meets m rest n) : Meets m t n
  | insert {m : PropertyMap} {t text rest : Text} {n : PropertyMap × Text}
      (h : host.within t = some (.insert text rest)) (hn : Meets m rest n) : Meets m t n
  | unknown {m : PropertyMap} {t ident rest : Text} {n : PropertyMap × Text}
      (h : host.within t = some (.property ident rest)) (hkey : host.Unknown m (keyOf ident))
      (hn : Meets m ('{' :: ident ++ '}' :: rest) n) : Meets m t n
  | stands {m m₁ m₂ : PropertyMap} {t ident rest text r₁ : Text} {n : PropertyMap × Text}
      (h : host.within t = some (.property ident rest)) (hval : host.Returns m (keyOf ident) text m₁)
      (hin : host.Reads m₁ (trimString text '\'') r₁ m₂) (hn : Meets m₂ (r₁ ++ rest) n) : Meets m t n

variable (host) in
/-- The same for the arguments of one call, one after the other. -/
inductive MeetsEach : PropertyMap → List Text → PropertyMap × Text → Prop
  | here {m : PropertyMap} {arg : Text} {args : List Text} {n : PropertyMap × Text} (hn : host.Meets m arg n) :
      MeetsEach m (arg :: args) n
  | later {m m' : PropertyMap} {arg r : Text} {args : List Text} {n : PropertyMap × Text}
      (hr : host.Reads m arg r m') (hn : MeetsEach m' args n) : MeetsEach m (arg :: args) n

theorem expandAt_of_unknown {m : PropertyMap} {key : Text} (h : host.Unknown m key) (fuel : ℕ) :
    ∃ e, host.expandAt (fuel + 1) m key true = some (.error e, m) := by
  rw [expandAt]
  by_cases hkey : key = []
  · exact ⟨.illegalProperty, if_pos hkey⟩
  · rw [if_neg hkey, h.resolve_left hkey]
    exact ⟨.notFound, rfl⟩

/-- A lookup throws only what it has found out at once. -/
theorem unknown_of_expandAt {m m' : PropertyMap} {key : Text} {e : PropertyError} {fuel : ℕ}
    (h : host.expandAt fuel m key true = some (.error e, m')) : host.Unknown m key ∧ m' = m := by
  cases fuel with
  | zero => exact absurd h (by simp [expandAt])
  | succ fuel =>
    rw [expandAt] at h
    split at h
    · next hkey => exact ⟨Or.inl hkey, by simp_all⟩
    · split at h
      · next hval => exact ⟨Or.inr hval, by simp_all⟩
      · obtain ⟨r, _, hr⟩ := Option.map_eq_some_iff.mp h
        simp at hr

theorem Returns.unique {m m₁ m₂ : PropertyMap} {key s₁ s₂ : Text} (h₁ : host.Returns m key s₁ m₁)
    (h₂ : host.Returns m key s₂ m₂) : s₁ = s₂ ∧ m₁ = m₂ := by
  obtain ⟨f₁, h₁⟩ := h₁
  obtain ⟨f₂, h₂⟩ := h₂
  simpa using (expandAt_steady m key true).unique h₁ h₂

theorem Returns.not_unknown {m m' : PropertyMap} {key s : Text} (h : host.Returns m key s m') :
    ¬ host.Unknown m key := by
  intro hun
  obtain ⟨fuel, h⟩ := h
  obtain ⟨e, he⟩ := expandAt_of_unknown hun fuel
  rw [expandAt_mono (Nat.le_succ fuel) h] at he
  simp at he

/-- There is one way to read a text. -/
theorem Reads.unique {m m₁ m₂ : PropertyMap} {t r₁ r₂ : Text} (h₁ : host.Reads m t r₁ m₁)
    (h₂ : host.Reads m t r₂ m₂) : r₁ = r₂ ∧ m₁ = m₂ := by
  induction h₁ generalizing r₂ m₂ with
  | spent h => cases h₂ <;> simp_all
  | keep h _ ih =>
    cases h₂ with
    | keep h' hr' =>
      rw [h] at h'
      cases h'
      exact ih hr'
    | _ => simp_all
  | insert h _ ih =>
    cases h₂ with
    | insert h' hr' =>
      rw [h] at h'
      cases h'
      exact ih hr'
    | _ => simp_all
  | unknown h hkey _ ih =>
    cases h₂ with
    | unknown h' hkey' hr' =>
      rw [h] at h'
      cases h'
      exact ih hr'
    | stands h' hval' =>
      rw [h] at h'
      cases h'
      exact absurd hkey hval'.not_unknown
    | _ => simp_all
  | stands h hval _ _ ihin ih =>
    cases h₂ with
    | unknown h' hkey' hr' =>
      rw [h] at h'
      cases h'
      exact absurd hkey' hval.not_unknown
    | stands h' hval' hin' hr' =>
      rw [h] at h'
      cases h'
      obtain ⟨rfl, rfl⟩ := hval.unique hval'
      obtain ⟨rfl, rfl⟩ := ihin hin'
      exact ih hr'
    | _ => simp_all

theorem Reads.no_brace {m m' : PropertyMap} {t r : Text} (h : host.Reads m t r m') : '}' ∉ r := by
  induction h with
  | spent h => exact brace_of_within_none h
  | keep _ _ ih => exact ih
  | insert _ _ ih => exact ih
  | unknown _ _ _ ih => exact ih
  | stands _ _ _ _ _ ih => exact ih

/-! ## What a text meets -/

section Meets

variable {m : PropertyMap} {t out text ident rest : Text} {n : PropertyMap × Text}

theorem not_meets_of_none (h : host.within t = none) : ¬ host.Meets m t n := by
  intro hn
  cases hn <;> simp_all

theorem Meets.of_keep (h : host.within t = some (.keep out rest)) (hn : host.Meets m t n) : host.Meets m rest n := by
  cases hn with
  | keep h' hn =>
    rw [h] at h'
    cases h'
    exact hn
  | _ => simp_all

theorem Meets.of_insert (h : host.within t = some (.insert text rest)) (hn : host.Meets m t n) :
    host.Meets m rest n := by
  cases hn with
  | insert h' hn =>
    rw [h] at h'
    cases h'
    exact hn
  | _ => simp_all

theorem Meets.of_unknown (h : host.within t = some (.property ident rest)) (hkey : host.Unknown m (keyOf ident))
    (hn : host.Meets m t n) : n = (m, keyOf ident) ∨ host.Meets m ('{' :: ident ++ '}' :: rest) n := by
  cases hn with
  | here h' =>
    rw [h] at h'
    cases h'
    exact Or.inl rfl
  | unknown h' _ hn =>
    rw [h] at h'
    cases h'
    exact Or.inr hn
  | stands h' hval =>
    rw [h] at h'
    cases h'
    exact absurd hkey hval.not_unknown
  | _ => simp_all

theorem Meets.of_stands {m₁ m₂ : PropertyMap} {r₁ : Text} (h : host.within t = some (.property ident rest))
    (hval : host.Returns m (keyOf ident) text m₁) (hin : host.Reads m₁ (trimString text '\'') r₁ m₂)
    (hn : host.Meets m t n) : n = (m, keyOf ident) ∨ host.Meets m₂ (r₁ ++ rest) n := by
  cases hn with
  | here h' =>
    rw [h] at h'
    cases h'
    exact Or.inl rfl
  | unknown h' hkey =>
    rw [h] at h'
    cases h'
    exact absurd hkey hval.not_unknown
  | stands h' hval' hin' hn =>
    rw [h] at h'
    cases h'
    obtain ⟨rfl, rfl⟩ := hval.unique hval'
    obtain ⟨rfl, rfl⟩ := hin.unique hin'
    exact Or.inr hn
  | _ => simp_all

end Meets

/-! ## The loop, as far as a text goes -/

variable (host) in
/-- The loop over `rest` ends, in `r`. -/
def Loops (m : PropertyMap) (done rest : Text) (r : Text × PropertyMap) : Prop :=
  ∃ fuel, host.expand (host.expandRef fuel) fuel m done rest = some r

theorem expandRef_eq (fuel : ℕ) (m : PropertyMap) (ident : Text) :
    host.expandRef fuel m (trimString ident ' ') = host.expandAt fuel m (keyOf ident) true := rfl

/-- The loop passes over what has no `%`, up to the first one. -/
theorem expand_spent (get : Lookup) (fuel : ℕ) (m : PropertyMap) (done t tail : Text) :
    host.expand get fuel m done (t ++ tail) =
      host.expand get fuel m (done ++ t.takeWhile (· ≠ '%')) (t.dropWhile (· ≠ '%') ++ tail) := by
  have hx : '%' ∉ t.takeWhile (· ≠ '%') := by
    intro hmem
    simpa using List.mem_takeWhile_imp hmem
  rw [← expand_append _ _ _ _ hx, ← List.append_assoc, List.takeWhile_append_dropWhile]

/-- A round of the loop, for every fuel that is large enough. -/
theorem Loops.of_round {m m' : PropertyMap} {done done' rest rest' : Text} {res : Text × PropertyMap}
    (h : host.Loops m' done' rest' res) (fuel₀ : ℕ)
    (hround : ∀ fuel ≥ fuel₀, host.expand (host.expandRef (fuel + 1)) (fuel + 1) m done rest =
      host.expand (host.expandRef (fuel + 1)) fuel m' done' rest') : host.Loops m done rest res := by
  obtain ⟨fuel, hfuel⟩ := h
  have hle : fuel ≤ max fuel₀ fuel := le_max_right _ _
  refine ⟨max fuel₀ fuel + 1, ?_⟩
  rw [hround _ (le_max_left _ _)]
  exact expand_mono (expandRef_mono (Nat.le_succ_of_le hle)) hle hfuel

/-- What is read on its own is used up by the loop, whatever stands behind it. -/
theorem Reads.run (hplain : '%' ∉ host.hostname) {m m' : PropertyMap} {t r : Text} (h : host.Reads m t r m')
    (done tail : Text) :
    ∃ done', ∀ res, host.Loops m' done' (r ++ tail) res → host.Loops m done (t ++ tail) res := by
  induction h generalizing done tail with
  | spent h =>
    rename_i m t
    refine ⟨done ++ t.takeWhile (· ≠ '%'), ?_⟩
    rintro res ⟨fuel, hfuel⟩
    exact ⟨fuel, (expand_spent _ _ _ _ _ _).trans hfuel⟩
  | keep h _ ih =>
    obtain ⟨done', hdone⟩ := ih _ tail
    exact ⟨done', fun res hres => (hdone res hres).of_round 0 fun fuel _ => expand_keep _ _ _ _ _ h⟩
  | insert h _ ih =>
    obtain ⟨done', hdone⟩ := ih _ tail
    exact ⟨done', fun res hres => (hdone res hres).of_round 0 fun fuel _ => expand_insert _ _ _ _ _ hplain h⟩
  | unknown h hkey hr ih =>
    rename_i t ident rest r
    obtain ⟨done', hdone⟩ := ih (done ++ t.takeWhile (· ≠ '%')) tail
    refine ⟨done', fun res hres => (hdone res hres).of_round 0 fun fuel _ => ?_⟩
    obtain ⟨e, he⟩ := expandAt_of_unknown hkey fuel
    exact expand_error _ _ _ h ((expandRef_eq _ _ _).trans he)
  | stands h hval hin hr ihin ih =>
    rename_i t ident rest text r₁ r
    obtain ⟨fuel₁, hval⟩ := hval
    obtain ⟨done₁, hused⟩ := ihin (done ++ t.takeWhile (· ≠ '%')) (rest ++ tail)
    obtain ⟨done', hdone⟩ := ih done₁ tail
    refine ⟨done', fun res hres => ?_⟩
    have hloop := hdone res hres
    rw [List.append_assoc] at hloop
    refine (hused res hloop).of_round fuel₁ fun fuel hfuel => ?_
    exact expand_ok _ _ _ h ((expandRef_eq _ _ _).trans (expandAt_mono (Nat.le_succ_of_le hfuel) hval))

/-- No reference is met in a text without a closing brace. -/
theorem directive_of_no_brace {after : Text} (h : '}' ∉ after) {ident rest : Text} :
    host.directive after ≠ .property ident rest := by
  intro hd
  obtain ⟨_, rfl⟩ := directive_property hd
  simp at h

theorem expand_of_no_brace (hplain : '%' ∉ host.hostname) (get : Lookup) (m : PropertyMap) (done : Text) {rest : Text}
    (h : '}' ∉ rest) {fuel : ℕ} (hfuel : rest.count '%' < fuel) :
    ∃ out, host.expand get fuel m done rest = some (out, m) := by
  induction fuel generalizing done rest with
  | zero => omega
  | succ fuel ih =>
    by_cases hp : '%' ∈ rest
    · obtain ⟨x, after, rfl, hx⟩ := List.eq_append_cons_of_mem hp
      have hafter : '}' ∉ after := fun hmem => h (by simp [hmem])
      have hcount : after.count '%' < fuel := by
        rw [List.count_append, List.count_cons_self] at hfuel
        omega
      rw [expand, (dropWhile_append_cons hx _).1, (dropWhile_append_cons hx _).2]
      dsimp only
      cases hd : host.directive after with
      | keep out rest =>
        have hsub := directive_keep hd
        exact ih _ (fun hmem => hafter (hsub.subset hmem)) ((hsub.sublist.count_le _).trans_lt hcount)
      | insert text rest =>
        have hsub := directive_insert hd
        dsimp only
        rw [expand_append get fuel m _ (plain_of_insert hplain hd)]
        exact ih _ (fun hmem => hafter (hsub.subset hmem)) ((hsub.sublist.count_le _).trans_lt hcount)
      | property ident rest => exact absurd hd (directive_of_no_brace hafter)
    · have hnil := dropWhile_of_notMem hp
      exact ⟨done ++ rest, by rw [expand, hnil]⟩

end Host

end Lasagne.Daf
