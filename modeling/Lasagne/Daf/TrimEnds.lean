import Mathlib
import Lasagne.Trans.Normal
import Lasagne.Daf.TrimString

/-!
# Lasagne.Daf.TrimEnds — what `DAF::trim_string` takes off

The loop looks at the last character first, then at the first one, and at both at once only where neither is blank.  The
order does not matter: it comes to the same as taking characters off the ends for as long as there is one to be taken.

* `Removal` : one character, or a pair of them, taken off;
* `trimString_of_ends` : the loop comes to what the removals come to.
-/

namespace Lasagne.Daf

open Lasagne.Trans Relation

variable {c a : Char} {s t u : List Char}

/-- What becomes of a control character that is left inside. -/
def spaced (a : Char) : Char := if isCntrl a then ' ' else a

/-- A blank goes from either end, and the character from both ends at once, or alone. -/
inductive Removal (c : Char) : List Char → List Char → Prop
  | front (a : Char) (s : List Char) : isBlank a = true → Removal c (a :: s) s
  | back (s : List Char) (a : Char) : isBlank a = true → Removal c (s ++ [a]) s
  | both (s : List Char) : Removal c (c :: (s ++ [c])) s
  | single : Removal c [c] []

theorem Removal.length_lt (h : Removal c s t) : t.length < s.length := by
  cases h with
  | front a => exact Nat.lt_succ_self _
  | back a => simp
  | both => simp
  | single => simp

/-! ## One step after the other -/

/-- A text of one character, or one with a first and a last one. -/
theorem cons_eq_concat {a b : Char} (h : a :: s = t ++ [b]) : s = [] ∧ t = [] ∧ a = b ∨ ∃ m, s = m ++ [b] ∧ t = a :: m := by
  cases t with
  | nil =>
    obtain ⟨rfl, rfl⟩ := List.cons.inj h
    exact Or.inl ⟨rfl, rfl, rfl⟩
  | cons x m =>
    obtain ⟨rfl, rfl⟩ := List.cons.inj h
    exact Or.inr ⟨m, rfl, rfl⟩

theorem exists_concat {n : ℕ} (h : s.length = n + 1) : ∃ t a, s = t ++ [a] ∧ t.length = n := by
  rcases List.eq_nil_or_concat s with rfl | ⟨t, a, rfl⟩
  · cases h
  · rw [List.concat_eq_append] at h ⊢
    exact ⟨t, a, rfl, by simpa using h⟩

/-- Whatever is taken off after a blank at the front, the two can be taken off the other way round. -/
theorem Removal.meet_front {a : Char} (ha : isBlank a = true) (h : Removal c (a :: s) t) :
    ∃ d, ReflGen (Removal c) s d ∧ ReflTransGen (Removal c) t d := by
  generalize hs : a :: s = u at h
  cases h with
  | front b _ hb =>
    obtain ⟨rfl, rfl⟩ := List.cons.inj hs
    exact ⟨_, .refl, .refl⟩
  | back _ b hb =>
    rcases cons_eq_concat hs with ⟨rfl, rfl, rfl⟩ | ⟨m, rfl, rfl⟩
    · exact ⟨_, .refl, .refl⟩
    · exact ⟨m, .single (.back m b hb), .single (.front a m ha)⟩
  | both =>
    obtain ⟨rfl, rfl⟩ := List.cons.inj hs
    exact ⟨_, .single (.back _ _ ha), .refl⟩
  | single =>
    obtain ⟨rfl, rfl⟩ := List.cons.inj hs
    exact ⟨_, .refl, .refl⟩

theorem Removal.meet_back {a : Char} (ha : isBlank a = true) (h : Removal c (s ++ [a]) t) :
    ∃ d, ReflGen (Removal c) s d ∧ ReflTransGen (Removal c) t d := by
  generalize hs : s ++ [a] = u at h
  cases h with
  | front b _ hb =>
    rcases cons_eq_concat hs.symm with ⟨rfl, rfl, rfl⟩ | ⟨m, rfl, rfl⟩
    · exact ⟨_, .refl, .refl⟩
    · exact ⟨m, .single (.front b m hb), .single (.back m a ha)⟩
  | back _ b hb =>
    obtain ⟨rfl, hb⟩ := List.append_inj' hs rfl
    exact ⟨_, .refl, .refl⟩
  | both =>
    rcases cons_eq_concat hs.symm with ⟨hnil, -⟩ | ⟨m, hm, rfl⟩
    · simp at hnil
    · obtain ⟨rfl, hc⟩ := List.append_inj' hm rfl
      obtain rfl := List.head_eq_of_cons_eq hc
      exact ⟨_, .single (.front c _ ha), .refl⟩
  | single =>
    obtain ⟨rfl, -⟩ := List.append_inj' (hs.trans (List.nil_append [c]).symm) rfl
    exact ⟨_, .refl, .refl⟩

/-- No choice of what to take off next matters. -/
theorem removal_meet (c : Char) : Meet (Removal c) := by
  intro s t u ht hu
  cases ht with
  | front a _ ha => exact Removal.meet_front ha hu
  | back _ a ha => exact Removal.meet_back ha hu
  | both =>
    generalize hs : c :: (t ++ [c]) = v at hu
    cases hu with
    | front b _ hb =>
      obtain ⟨rfl, rfl⟩ := List.cons.inj hs
      exact ⟨t, .refl, .single (.back t c hb)⟩
    | back _ b hb =>
      rcases cons_eq_concat hs with ⟨hnil, -⟩ | ⟨m, hm, rfl⟩
      · simp at hnil
      · obtain ⟨rfl, hc⟩ := List.append_inj' hm rfl
        obtain rfl := List.head_eq_of_cons_eq hc
        exact ⟨t, .refl, .single (.front c t hb)⟩
    | both =>
      obtain ⟨-, htu⟩ := List.cons.inj hs
      obtain ⟨rfl, -⟩ := List.append_inj' htu rfl
      exact ⟨t, .refl, .refl⟩
    | single => simp at hs
  | single =>
    generalize hs : [c] = v at hu
    cases hu with
    | front b _ hb =>
      obtain ⟨-, rfl⟩ := List.cons.inj hs
      exact ⟨_, .refl, .refl⟩
    | back _ b hb =>
      obtain ⟨rfl, -⟩ := List.append_inj' ((List.nil_append [c]).trans hs) rfl
      exact ⟨_, .refl, .refl⟩
    | both => simp at hs
    | single => exact ⟨_, .refl, .refl⟩

/-! ## The loop -/

theorem settled_iff : Settled (Removal c) s ↔ (∀ a, s.head? = some a → isBlank a = false) ∧
    (∀ a, s.getLast? = some a → isBlank a = false) ∧ ¬ (s.head? = some c ∧ s.getLast? = some c) := by
  constructor
  · intro h
    refine ⟨fun a ha => ?_, fun a ha => ?_, fun ⟨hhead, hlast⟩ => ?_⟩
    · obtain ⟨s, rfl⟩ := List.head?_eq_some_iff.mp ha
      exact Bool.eq_false_of_not_eq_true fun hblank => h s (.front a s hblank)
    · obtain ⟨s, rfl⟩ := List.getLast?_eq_some_iff.mp ha
      exact Bool.eq_false_of_not_eq_true fun hblank => h s (.back s a hblank)
    · obtain ⟨s, rfl⟩ := List.head?_eq_some_iff.mp hhead
      obtain ⟨t, ht⟩ := List.getLast?_eq_some_iff.mp hlast
      rcases cons_eq_concat ht with ⟨rfl, -, -⟩ | ⟨m, rfl, -⟩
      · exact h [] .single
      · exact h m (.both m)
  · rintro ⟨hhead, hlast, hends⟩ t ht
    cases ht with
    | front a _ ha => simp [hhead a rfl] at ha
    | back _ a ha => simp [hlast a (by simp)] at ha
    | both => exact hends ⟨rfl, by rw [← List.cons_append, List.getLast?_concat]⟩
    | single => exact hends ⟨rfl, rfl⟩

/-- The loop takes off what can be taken off, and does nothing else but that it puts blanks for control characters. -/
theorem trimLoop_ends (c : Char) (pos : ℕ) (arg : List Char) (hlen : arg.length = pos) :
    ∃ t, Ends (Removal c) arg t ∧ trimLoop c pos arg = t.map spaced := by
  fun_induction trimLoop c pos arg with
  | case1 arg =>
    obtain rfl := List.eq_nil_of_length_eq_zero hlen
    exact ⟨[], .refl (settled_iff.mpr (by simp)), rfl⟩
  | case2 pos arg hblank ih =>
    obtain ⟨s, a, rfl, rfl⟩ := exists_concat hlen
    have herase : (s ++ [a]).eraseIdx s.length = s := by simp [List.eraseIdx_append_of_length_le]
    rw [herase] at ih ⊢
    obtain ⟨t, ht, heq⟩ := ih rfl
    exact ⟨t, .head (.back s a (by simpa using hblank)) ht, heq⟩
  | case3 pos arg hlast hblank ih =>
    obtain ⟨a, s, rfl⟩ := List.exists_cons_of_length_eq_add_one hlen
    obtain ⟨t, ht, heq⟩ := ih (by simpa using hlen)
    exact ⟨t, .head (.front a s hblank) ht, heq⟩
  | case4 arg hlast hhead hends =>
    obtain ⟨a, rfl⟩ := List.length_eq_one_iff.mp hlen
    obtain rfl : a = c := hends.1
    exact ⟨[], .head .single (.refl (settled_iff.mpr (by simp))), rfl⟩
  | case5 arg hhead pos hlast hends ih =>
    obtain ⟨a, s, rfl⟩ := List.exists_cons_of_length_eq_add_one hlen
    obtain ⟨m, b, rfl, rfl⟩ := exists_concat (Nat.succ.inj hlen)
    obtain ⟨rfl, rfl⟩ : a = c ∧ b = c := by simpa using hends
    have herase : ((b :: (m ++ [b])).eraseIdx (m.length + 1)).eraseIdx 0 = m := by
      simp [List.eraseIdx_append_of_length_le]
    rw [herase] at ih ⊢
    obtain ⟨t, ht, heq⟩ := ih rfl
    exact ⟨t, .head (.both m) ht, heq⟩
  | case6 pos arg hlast hhead hends =>
    have hfirst : ∀ a, arg.head? = some a → arg.getD 0 '\x00' = a := by
      intro a ha
      obtain ⟨s, rfl⟩ := List.head?_eq_some_iff.mp ha
      rfl
    have hfinal : ∀ a, arg.getLast? = some a → arg.getD pos '\x00' = a := by
      intro a ha
      obtain ⟨s, rfl⟩ := List.getLast?_eq_some_iff.mp ha
      obtain rfl : s.length = pos := by simpa using hlen
      simp
    have hsettled : Settled (Removal c) arg := by
      refine settled_iff.mpr ⟨fun a ha => ?_, fun a ha => ?_, fun hc => hends ⟨hfirst c hc.1, hfinal c hc.2⟩⟩
      · exact Bool.eq_false_of_not_eq_true (hfirst a ha ▸ hhead)
      · exact Bool.eq_false_of_not_eq_true (hfinal a ha ▸ hlast)
    refine ⟨arg, .refl hsettled, ?_⟩
    rw [List.take_of_length_le hlen.le, List.drop_of_length_le hlen.le, List.append_nil]
    rfl

/-- The loop comes to what the removals come to, in whatever order they are made. -/
theorem trimString_of_ends (h : Ends (Removal c) s t) : trimString s c = t.map spaced := by
  obtain ⟨u, hu, heq⟩ := trimLoop_ends c s.length s rfl
  rw [trimString, heq, hu.unique (removal_meet c) h]

theorem spaced_of_not_blank (h : isBlank a = false) : spaced a = a := by
  have hcntrl : isCntrl a = false := (Bool.or_eq_false_iff.mp h).2
  simp [spaced, hcntrl]

/-- The only blank that is no control character. -/
theorem eq_space (hspace : isSpace a = true) (hcntrl : isCntrl a = false) : a = ' ' := by
  rcases Bool.or_eq_true_iff.mp hspace with heq | hrange
  · exact beq_iff_eq.mp heq
  · rw [Bool.and_eq_true, decide_eq_true_eq, decide_eq_true_eq] at hrange
    have hlow : a.toNat < 32 := by omega
    simp [isCntrl, hlow] at hcntrl

theorem isCntrl_spaced (a : Char) : isCntrl (spaced a) = false := by
  unfold spaced
  split
  · decide
  · next h => exact Bool.eq_false_of_not_eq_true h

theorem spaced_spaced (a : Char) : spaced (spaced a) = spaced a := by
  rw [spaced, if_neg (by simp [isCntrl_spaced])]

/-- The blanks that are put in are inside. -/
theorem settled_map_spaced (h : Settled (Removal c) s) : Settled (Removal c) (s.map spaced) ∧
    (s.map spaced).head? = s.head? ∧ (s.map spaced).getLast? = s.getLast? := by
  obtain ⟨hhead, hlast, hends⟩ := settled_iff.mp h
  have hhead' : (s.map spaced).head? = s.head? := by
    rw [List.head?_map]
    cases heq : s.head? with
    | none => rfl
    | some a => exact congrArg some (spaced_of_not_blank (hhead a heq))
  have hlast' : (s.map spaced).getLast? = s.getLast? := by
    rw [List.getLast?_map]
    cases heq : s.getLast? with
    | none => rfl
    | some a => exact congrArg some (spaced_of_not_blank (hlast a heq))
  refine ⟨settled_iff.mpr ?_, hhead', hlast'⟩
  rw [hhead', hlast']
  exact ⟨hhead, hlast, hends⟩

/-- `trim_string` comes to what is left when characters are taken off the ends for as long as that can be done, with
blanks for the control characters inside, and there is nothing more to be taken off it. -/
theorem trimString_normal (s : List Char) (c : Char) :
    (∃ t, Ends (Removal c) s t) ∧ (∀ t, Ends (Removal c) s t → trimString s c = t.map spaced) ∧
      (∀ a, (trimString s c).head? = some a ∨ (trimString s c).getLast? = some a → isBlank a = false) ∧
      ¬ ((trimString s c).head? = some c ∧ (trimString s c).getLast? = some c) ∧
      trimString (trimString s c) c = trimString s c := by
  obtain ⟨t, ht⟩ := Ends.exists_of_measure (r := Removal c) List.length (fun _ _ h => h.length_lt) s
  have htrim := trimString_of_ends ht
  obtain ⟨hsettled, -, -⟩ := settled_map_spaced ht.settled
  obtain ⟨hhead, hlast, hends⟩ := settled_iff.mp hsettled
  rw [htrim]
  refine ⟨⟨t, ht⟩, fun u hu => by rw [ht.unique (removal_meet c) hu], ?_, hends, ?_⟩
  · rintro a (ha | ha)
    · exact hhead a ha
    · exact hlast a ha
  · rw [trimString_of_ends (.refl hsettled), List.map_map]
    exact List.map_congr_left fun a _ => spaced_spaced a

example : trimString ['\t', '\'', ' ', '\'', 'a', '\n', 'b', '\'', '\''] '\'' = ['a', ' ', 'b'] := by decide

/-! ## Blanks at the ends -/

theorem trimString_of_reach (h : ReflTransGen (Removal c) s t) : trimString s c = trimString t c := by
  obtain ⟨u, hu⟩ := Ends.exists_of_measure (r := Removal c) List.length (fun _ _ h => h.length_lt) t
  rw [trimString_of_ends hu, trimString_of_ends ⟨h.trans hu.reach, hu.settled⟩]

theorem trimString_of_settled (h : Settled (Removal c) s) : trimString s c = s.map spaced :=
  trimString_of_ends (.refl h)

theorem trimString_blanks_append (c : Char) (s : List Char) {x : List Char} (hx : ∀ a ∈ x, isBlank a = true) :
    trimString (x ++ s) c = trimString s c := by
  induction x with
  | nil => rfl
  | cons a x ih =>
    rw [← ih fun b hb => hx b (List.mem_cons_of_mem a hb)]
    exact trimString_of_reach (.single (.front a (x ++ s) (hx a List.mem_cons_self)))

theorem trimString_append_blanks (c : Char) (s : List Char) {y : List Char} (hy : ∀ a ∈ y, isBlank a = true) :
    trimString (s ++ y) c = trimString s c := by
  induction y using List.reverseRecOn with
  | nil => rw [List.append_nil]
  | append_singleton y a ih =>
    rw [← ih fun b hb => hy b (List.mem_append_left _ hb), ← List.append_assoc]
    exact trimString_of_reach (.single (.back (s ++ y) a (hy a (by simp))))

theorem trimString_trimString (s : List Char) (c : Char) : trimString (trimString s c) c = trimString s c := by
  obtain ⟨t, ht⟩ := Ends.exists_of_measure (r := Removal c) List.length (fun _ _ h => h.length_lt) s
  rw [trimString_of_ends ht, trimString_of_settled (settled_map_spaced ht.settled).1, List.map_map]
  exact List.map_congr_left fun a _ => spaced_spaced a

theorem settled_trimString (s : List Char) (c : Char) : Settled (Removal c) (trimString s c) := by
  obtain ⟨t, ht⟩ := Ends.exists_of_measure (r := Removal c) List.length (fun _ _ h => h.length_lt) s
  rw [trimString_of_ends ht]
  exact (settled_map_spaced ht.settled).1

theorem trimString_eq_self_iff : trimString s c = s ↔ Settled (Removal c) s ∧ ∀ a ∈ s, isCntrl a = false := by
  constructor
  · intro h
    exact ⟨h ▸ settled_trimString s c, h ▸ (trimString_tidy s c).cntrl⟩
  · rintro ⟨hsettled, hcntrl⟩
    rw [trimString_of_settled hsettled]
    exact (List.map_congr_left fun a ha => by simp [spaced, hcntrl a ha]).trans (List.map_id s)

/-- Without blanks at the ends there is nothing to be taken off for the blank. -/
theorem settled_space_iff : Settled (Removal ' ') s ↔ (∀ a, s.head? = some a → isBlank a = false) ∧
    ∀ a, s.getLast? = some a → isBlank a = false := by
  rw [settled_iff]
  refine ⟨fun h => ⟨h.1, h.2.1⟩, fun h => ⟨h.1, h.2, fun hends => ?_⟩⟩
  exact absurd (h.1 ' ' hends.1) (by decide)

/-- A text without the blanks at its ends, and with them. -/
theorem exists_core (s : List Char) : ∃ t y, s = s.takeWhile isBlank ++ (t ++ y) ∧ (∀ a ∈ y, isBlank a = true) ∧
    Settled (Removal ' ') t := by
  refine ⟨(s.dropWhile isBlank).rdropWhile isBlank, (s.dropWhile isBlank).rtakeWhile isBlank, ?_, ?_, ?_⟩
  · rw [List.rdropWhile_append_rtakeWhile, List.takeWhile_append_dropWhile]
  · exact fun a ha => List.mem_rtakeWhile_imp ha
  · refine settled_space_iff.mpr ⟨fun a ha => ?_, fun a ha => ?_⟩
    · obtain ⟨v, hv⟩ := List.rdropWhile_prefix isBlank (s.dropWhile isBlank)
      have hhead : (s.dropWhile isBlank).head? = some a := by
        rw [← hv, List.head?_append_of_ne_nil _ (by rintro hnil; rw [hnil] at ha; cases ha)]
        exact ha
      have hnot := List.head?_dropWhile_not isBlank s
      rw [hhead] at hnot
      exact Bool.eq_false_of_not_eq_true (by simpa using hnot)
    · have hne : (s.dropWhile isBlank).rdropWhile isBlank ≠ [] := by
        rintro hnil
        rw [hnil] at ha
        cases ha
      have hnot := List.rdropWhile_last_not isBlank _ hne
      rw [List.getLast?_eq_some_getLast hne, Option.some.injEq] at ha
      rw [ha] at hnot
      exact Bool.eq_false_of_not_eq_true hnot

end Lasagne.Daf
