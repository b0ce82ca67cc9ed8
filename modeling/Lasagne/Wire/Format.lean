import Lasagne.Wire.Lex

/-!
# Lasagne.Wire.Format — numbers in the formats of C's `printf` and `scanf`

A format is made of conversions of integers, with or without a width, and of characters.  Printing pads a number with
zeros up to the width, and scanning reads no further than that.

* `scan_print` : what a format of fixed widths has printed is read back by it, whatever is read behind it;
* `print_lt_iff` : and its texts are ordered as the numbers are.
-/

namespace Lasagne.Wire

/-- `%d`, or `%0wd` with a width `w`; and a character. -/
inductive Item where
  | int (width : Option ℕ)
  | char (c : Char)
deriving DecidableEq, Repr

/-! ## Printing -/

def printInt (width : Option ℕ) (z : ℤ) : List Char :=
  let sign := if z < 0 then ['-'] else []
  let digits := Nat.toDigits 10 z.natAbs
  sign ++ List.replicate (width.getD 0 - sign.length - digits.length) '0' ++ digits

def print : List Item → List ℤ → List Char
  | [], _ => []
  | .char c :: fmt, args => c :: print fmt args
  | .int width :: fmt, z :: args => printInt width z ++ print fmt args
  | .int _ :: _, [] => []

/-! ## Scanning -/

/-- `isspace`. -/
def isWhite (c : Char) : Bool := c == ' ' || (decide (9 ≤ c.toNat) && decide (c.toNat ≤ 13))

def takeSign : List Char → Bool × List Char
  | '-' :: body => (true, body)
  | '+' :: body => (false, body)
  | body => (false, body)

/-- The number at the head of a text, and the text behind it. -/
def scanInt (width : Option ℕ) (s : List Char) : Option (ℤ × List Char) :=
  let s := s.dropWhile isWhite
  let field := match width with
    | some w => s.take w
    | none => s
  let (neg, body) := takeSign field
  let digits := body.takeWhile Char.isDigit
  if digits = [] then none
  else
    let value : ℤ := Nat.ofDigitChars 10 digits 0
    some (if neg then -value else value, s.drop (field.length - body.length + digits.length))

/-- The numbers that are read from a text before the format, or the text, comes to an end. -/
def scan : List Item → List Char → List ℤ
  | [], _ => []
  | .int width :: fmt, s =>
    match scanInt width s with
    | some (z, rest) => z :: scan fmt rest
    | none => []
  | .char c :: fmt, s =>
    if isWhite c then scan fmt (s.dropWhile isWhite)
    else match s with
      | c' :: rest => if c' = c then scan fmt rest else []
      | [] => []

/-! ## Numbers of a fixed width -/

variable {w : ℕ} {z : ℤ} {fmt more : List Item} {args args' : List ℤ}

theorem toNat_of_isDigit {c : Char} (h : c.isDigit = true) : 48 ≤ c.toNat ∧ c.toNat ≤ 57 := by
  rw [Char.isDigit, Bool.and_eq_true, decide_eq_true_eq, decide_eq_true_eq] at h
  exact h

theorem not_isWhite_of_isDigit {c : Char} (h : c.isDigit = true) : isWhite c = false := by
  have hlo := (toNat_of_isDigit h).1
  simp only [isWhite, Bool.or_eq_false_iff, beq_eq_false_iff_ne, Bool.and_eq_false_iff, decide_eq_false_iff_not]
  refine ⟨?_, by omega⟩
  rintro rfl
  exact absurd hlo (by decide)

theorem takeSign_of_isDigit {c : Char} (h : c.isDigit = true) (s : List Char) :
    takeSign (c :: s) = (false, c :: s) := by
  unfold takeSign
  split
  · next heq =>
    obtain ⟨rfl, -⟩ := List.cons_eq_cons.mp heq
    exact absurd h (by decide)
  · next heq =>
    obtain ⟨rfl, -⟩ := List.cons_eq_cons.mp heq
    exact absurd h (by decide)
  · rfl

theorem printInt_eq (h : 0 ≤ z) : printInt (some w) z =
    List.replicate (w - (Nat.toDigits 10 z.natAbs).length) '0' ++ Nat.toDigits 10 z.natAbs := by
  unfold printInt
  rw [if_neg (by omega)]
  rfl

/-! ### Without a width -/

theorem printInt_none (z : ℤ) : printInt none z = (if z < 0 then ['-'] else []) ++ Nat.toDigits 10 z.natAbs := by
  simp [printInt]

theorem mem_printInt_none {c : Char} (hc : c ∈ printInt none z) : c = '-' ∨ c.isDigit = true := by
  rw [printInt_none, List.mem_append] at hc
  rcases hc with hc | hc
  · split at hc
    · exact .inl (by simpa using hc)
    · simp at hc
  · exact .inr (Nat.isDigit_of_mem_toDigits (by decide) (by decide) hc)

theorem printInt_none_injective : Function.Injective (printInt none) := by
  have hdigits : ∀ {m n : ℕ}, Nat.toDigits 10 m = Nat.toDigits 10 n → m = n := fun {m n} h =>
    calc
      m = Nat.ofDigitChars 10 (Nat.toDigits 10 m) 0 := Nat.ofDigitChars_ten_toDigits.symm
      _ = Nat.ofDigitChars 10 (Nat.toDigits 10 n) 0 := by rw [h]
      _ = n := Nat.ofDigitChars_ten_toDigits
  have hsign : ∀ {m n : ℕ}, '-' :: Nat.toDigits 10 m ≠ Nat.toDigits 10 n := fun {m n} h => by
    have hmem : '-' ∈ Nat.toDigits 10 n := h ▸ List.mem_cons_self ..
    exact absurd (Nat.isDigit_of_mem_toDigits (by decide) (by decide) hmem) (by decide)
  intro y z h
  rw [printInt_none, printInt_none] at h
  split at h <;> split at h
  · have := hdigits (List.cons.inj h).2
    omega
  · exact absurd h hsign
  · exact absurd h.symm hsign
  · have := hdigits h
    omega

/-! ### With a width -/

theorem isDigit_of_mem_printInt (h : 0 ≤ z) {c : Char} (hc : c ∈ printInt (some w) z) : c.isDigit = true := by
  rw [printInt_eq h, List.mem_append, List.mem_replicate] at hc
  rcases hc with ⟨-, rfl⟩ | hc
  · rfl
  · exact Nat.isDigit_of_mem_toDigits (by decide) (by decide) hc

theorem length_printInt (hw : 0 < w) (h : 0 ≤ z) (hz : z < 10 ^ w) : (printInt (some w) z).length = w := by
  have hlt : z.natAbs < 10 ^ w := by
    obtain ⟨n, rfl⟩ := Int.eq_ofNat_of_zero_le h
    exact_mod_cast hz
  have hle := (Nat.length_toDigits_le_iff (by decide) hw).mpr hlt
  rw [printInt_eq h, List.length_append, List.length_replicate]
  omega

/-- Leading zeros change nothing. -/
theorem ofDigitChars_printInt (h : 0 ≤ z) : (Nat.ofDigitChars 10 (printInt (some w) z) 0 : ℤ) = z := by
  rw [printInt_eq h, Nat.ofDigitChars_append, Nat.ofDigitChars_replicate_zero, Nat.mul_zero,
    Nat.ofDigitChars_ten_toDigits]
  omega

theorem scanInt_printInt (hw : 0 < w) (h : 0 ≤ z) (hz : z < 10 ^ w) (tail : List Char) :
    scanInt (some w) (printInt (some w) z ++ tail) = some (z, tail) := by
  have hlength := length_printInt hw h hz
  have hvalue : (Nat.ofDigitChars 10 (printInt (some w) z) 0 : ℤ) = z := ofDigitChars_printInt h
  have hdigits : ∀ c ∈ printInt (some w) z, c.isDigit = true := fun c hc => isDigit_of_mem_printInt h hc
  generalize printInt (some w) z = ds at *
  obtain _ | ⟨c, ds⟩ := ds
  · exact absurd hlength (by simp [hw.ne])
  · have hc := hdigits c List.mem_cons_self
    have hskip : (c :: ds ++ tail).dropWhile isWhite = c :: ds ++ tail := by
      rw [List.cons_append, List.dropWhile_cons, not_isWhite_of_isDigit hc]
      rfl
    have hfield : (c :: ds ++ tail).take w = c :: ds := by rw [← hlength, List.take_left]
    have hall : (c :: ds).takeWhile Char.isDigit = c :: ds := List.takeWhile_eq_self_iff.mpr hdigits
    unfold scanInt
    rw [hskip]
    dsimp only
    rw [hfield, takeSign_of_isDigit hc, hall, if_neg (List.cons_ne_nil c ds), hvalue, Nat.sub_self, Nat.zero_add,
      List.drop_left]
    rfl

/-- Blanks before a number are passed over. -/
theorem scanInt_dropWhile (width : Option ℕ) (s : List Char) :
    scanInt width (s.dropWhile isWhite) = scanInt width s := by
  unfold scanInt
  rw [List.dropWhile_idempotent]

/-- Every number has a width and fits it, and a blank stands before a number. -/
def Fits : List Item → List ℤ → Prop
  | [], args => args = []
  | .char c :: fmt, args => (isWhite c = true → ∃ w fmt', fmt = .int w :: fmt') ∧ Fits fmt args
  | .int (some w) :: fmt, z :: args => (0 < w ∧ 0 ≤ z ∧ z < 10 ^ w) ∧ Fits fmt args
  | .int _ :: _, _ => False

/-- **Round trip.** -/
theorem scan_print (h : Fits fmt args) (more : List Item) (tail : List Char) :
    scan (fmt ++ more) (print fmt args ++ tail) = args ++ scan more tail := by
  induction fmt generalizing args with
  | nil =>
    obtain rfl : args = [] := h
    rfl
  | cons item fmt ih =>
    cases item with
    | char c =>
      obtain ⟨hwhite, hfits⟩ := h
      rw [List.cons_append, print, List.cons_append, scan]
      split
      · next hc =>
        obtain ⟨w, fmt', rfl⟩ := hwhite hc
        rw [← ih hfits, List.cons_append, scan, scan, List.dropWhile_cons, if_pos hc, scanInt_dropWhile]
      · exact (if_pos rfl).trans (ih hfits)
    | int width =>
      obtain _ | w := width
      · exact absurd h id
      · obtain _ | ⟨z, args⟩ := args
        · exact absurd h id
        · obtain ⟨⟨hw, hz, hlt⟩, hfits⟩ := h
          rw [List.cons_append, print, List.append_assoc, scan, scanInt_printInt hw hz hlt]
          exact congrArg (z :: ·) (ih hfits)

/-- A number fits a width of the format. -/
theorem Fits.exists_width (h : Fits fmt args) (hz : z ∈ args) : ∃ w, .int (some w) ∈ fmt ∧ 0 ≤ z ∧ z < 10 ^ w := by
  induction fmt generalizing args with
  | nil =>
    obtain rfl : args = [] := h
    exact absurd hz List.not_mem_nil
  | cons item fmt ih =>
    cases item with
    | char c =>
      obtain ⟨w, hw, hrange⟩ := ih h.2 hz
      exact ⟨w, List.mem_cons_of_mem _ hw, hrange⟩
    | int width =>
      obtain _ | w := width
      · exact absurd h id
      · obtain _ | ⟨z', args⟩ := args
        · exact absurd h id
        · rcases List.mem_cons.mp hz with rfl | hz
          · exact ⟨w, List.mem_cons_self, h.1.2⟩
          · obtain ⟨w', hw', hrange⟩ := ih h.2 hz
            exact ⟨w', List.mem_cons_of_mem _ hw', hrange⟩

/-- A printed text is made of digits and of the characters of the format. -/
theorem mem_print (h : Fits fmt args) {c : Char} (hc : c ∈ print fmt args) : c.isDigit = true ∨ .char c ∈ fmt := by
  induction fmt generalizing args with
  | nil => exact absurd hc List.not_mem_nil
  | cons item fmt ih =>
    cases item with
    | char c' =>
      rw [print, List.mem_cons] at hc
      rcases hc with rfl | hc
      · exact Or.inr List.mem_cons_self
      · exact (ih h.2 hc).imp_right (List.mem_cons_of_mem _)
    | int width =>
      obtain _ | w := width
      · exact absurd h id
      · obtain _ | ⟨z, args⟩ := args
        · exact absurd h id
        · rw [print, List.mem_append] at hc
          rcases hc with hc | hc
          · exact Or.inl (isDigit_of_mem_printInt h.1.2.1 hc)
          · exact (ih h.2 hc).imp_right (List.mem_cons_of_mem _)

/-! ## The order of the texts -/

theorem ofDigitChars_cons_eq (c : Char) (l : List Char) :
    Nat.ofDigitChars 10 (c :: l) 0 = 10 ^ l.length * (c.toNat - 48) + Nat.ofDigitChars 10 l 0 := by
  rw [Nat.ofDigitChars_cons, Nat.ofDigitChars_eq_ofDigitChars_zero, Nat.mul_zero, Nat.zero_add]
  rfl

theorem ofDigitChars_lt {l : List Char} (h : ∀ c ∈ l, c.isDigit = true) : Nat.ofDigitChars 10 l 0 < 10 ^ l.length := by
  induction l with
  | nil => simp
  | cons c l ih =>
    have hc := toNat_of_isDigit (h c List.mem_cons_self)
    have hl := ih fun d hd => h d (List.mem_cons_of_mem c hd)
    have hdigit : 10 ^ l.length * (c.toNat - 48) ≤ 10 ^ l.length * 9 := Nat.mul_le_mul_left _ (by omega)
    rw [ofDigitChars_cons_eq, List.length_cons, Nat.pow_succ]
    omega

/-- Digits are ordered as the number they are, if there are as many of them. -/
theorem lt_iff_ofDigitChars_lt {l m : List Char} (hl : ∀ c ∈ l, c.isDigit = true) (hm : ∀ c ∈ m, c.isDigit = true)
    (h : l.length = m.length) : l < m ↔ Nat.ofDigitChars 10 l 0 < Nat.ofDigitChars 10 m 0 := by
  induction l generalizing m with
  | nil =>
    obtain rfl : m = [] := List.length_eq_zero_iff.mp h.symm
    simp
  | cons c l ih =>
    obtain _ | ⟨d, m⟩ := m
    · simp at h
    · have hlength : l.length = m.length := Nat.succ_injective h
      have hl' : ∀ c ∈ l, c.isDigit = true := fun c hc => hl c (List.mem_cons_of_mem _ hc)
      have hm' : ∀ c ∈ m, c.isDigit = true := fun c hc => hm c (List.mem_cons_of_mem _ hc)
      have hc := toNat_of_isDigit (hl c List.mem_cons_self)
      have hd := toNat_of_isDigit (hm d List.mem_cons_self)
      have hlt := ofDigitChars_lt hl'
      have hlt' := ofDigitChars_lt hm'
      have hchar : c < d ↔ c.toNat < d.toNat := Iff.rfl
      have heq : c = d ↔ c.toNat = d.toNat := Char.toNat_inj.symm
      rw [List.cons_lt_cons_iff, ih hl' hm' hlength, ofDigitChars_cons_eq, ofDigitChars_cons_eq, hchar, heq, ← hlength]
      rw [← hlength] at hlt'
      rcases lt_trichotomy c.toNat d.toNat with hcd | hcd | hcd
      · have hstep := Nat.mul_le_mul_left (10 ^ l.length) (show c.toNat - 48 + 1 ≤ d.toNat - 48 by omega)
        rw [Nat.mul_succ] at hstep
        refine iff_of_true (Or.inl hcd) ?_
        omega
      · rw [hcd]
        omega
      · have hstep := Nat.mul_le_mul_left (10 ^ l.length) (show d.toNat - 48 + 1 ≤ c.toNat - 48 by omega)
        rw [Nat.mul_succ] at hstep
        refine iff_of_false (by omega) ?_
        omega

/-- **Order.**  Texts of one format compare as the numbers in them do. -/
theorem print_lt_iff (h : Fits fmt args) (h' : Fits fmt args') : print fmt args < print fmt args' ↔ args < args' := by
  induction fmt generalizing args args' with
  | nil =>
    obtain rfl : args = [] := h
    obtain rfl : args' = [] := h'
    simp [print]
  | cons item fmt ih =>
    cases item with
    | char c =>
      rw [print, print, List.cons_lt_cons_iff, ih h.2 h'.2]
      simp
    | int width =>
      obtain _ | w := width
      · exact absurd h id
      · obtain _ | ⟨z, args⟩ := args
        · exact absurd h id
        · obtain _ | ⟨z', args'⟩ := args'
          · exact absurd h' id
          · obtain ⟨⟨hw, hz, hlt⟩, hfits⟩ := h
            obtain ⟨⟨-, hz', hlt'⟩, hfits'⟩ := h'
            have hlength : (printInt (some w) z).length = (printInt (some w) z').length := by
              rw [length_printInt hw hz hlt, length_printInt hw hz' hlt']
            have hvalue := ofDigitChars_printInt (w := w) hz
            have hvalue' := ofDigitChars_printInt (w := w) hz'
            rw [print, print, append_lt_append_iff hlength, ih hfits hfits', List.cons_lt_cons_iff,
              lt_iff_ofDigitChars_lt (fun c => isDigit_of_mem_printInt hz) (fun c => isDigit_of_mem_printInt hz')
                hlength]
            have heq : printInt (some w) z = printInt (some w) z' ↔ z = z' := by
              refine ⟨fun hprint => ?_, fun hzz => by rw [hzz]⟩
              rw [← hvalue, hprint, hvalue']
            rw [heq, ← Int.ofNat_lt, hvalue, hvalue']

end Lasagne.Wire
