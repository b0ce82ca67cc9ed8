import Lasagne.Daf.Semaphore
import Mathlib.Data.List.Basic

/-!
# Lasagne.Ldbc.SQLiteParameter — binding a value and reading it back

`Parameter::bind` and `Query::getData` have an overload for each type, and each of them its own way to SQLite.  What
is bound is stored in a column without a type, and read back from there.

* `columnInt_bindInt` : what goes through an `int` both ways is kept;
* `agree_iff` : for which values of a type what is read back is what was bound.
-/

namespace Lasagne.Ldbc

open Lasagne.Daf

/-! ## SQLite -/

/-- A value in a column. -/
inductive Value
  | null
  | integer (n : BitVec 64)
  | text (bytes : List UInt8)
  deriving DecidableEq

def sqlite3BindInt (i : BitVec 32) : Value := .integer (i.signExtend 64)

def sqlite3BindInt64 (i : BitVec 64) : Value := .integer i

/-- `SQLITE_MAX_LENGTH`, the limit of a connection that has not been given another. -/
def sqliteMaxLength : ℕ := 1000000000

/-- `sqlite3Strlen30`, of the bytes that a zero byte follows. -/
def sqlite3Strlen30 (s : List UInt8) : ℕ := (s.takeWhile (· != 0)).length % 2 ^ 30

/-- A negative length stands for the bytes up to the first zero; none is `SQLITE_TOOBIG`. -/
def sqlite3BindText (s : List UInt8) (n : ℤ) : Option Value :=
  let nByte := if n < 0 then sqlite3Strlen30 s else n.toNat
  if nByte > sqliteMaxLength then none else some (.text (s.take nByte))

/-- The decimal text of an integer. -/
def decimal (z : ℤ) : List UInt8 :=
  let digits := (Nat.toDigits 10 z.natAbs).map fun c => UInt8.ofNat c.toNat
  if z < 0 then 45 :: digits else digits

/-- What the integer of a text is, is up to SQLite. -/
def sqlite3ColumnInt64 (cast : List UInt8 → BitVec 64) : Value → BitVec 64
  | .null => 0
  | .integer n => n
  | .text s => cast s

def sqlite3ColumnInt (cast : List UInt8 → BitVec 64) (v : Value) : BitVec 32 := (sqlite3ColumnInt64 cast v).setWidth 32

/-- A null pointer, or the bytes that a zero byte follows. -/
def sqlite3ColumnText : Value → Option (List UInt8)
  | .null => none
  | .integer n => some (decimal n.toInt)
  | .text s => some s

def sqlite3ColumnBytes (v : Value) : ℤ := toInt ((sqlite3ColumnText v).getD []).length

/-! ## The model -/

/-- The types of parameters, as far as there are overloads for them here. -/
inductive ParameterType
  | unknown
  | bool
  | char
  | byte
  | short
  | ushort
  | long
  | ulong
  | longlong
  | string
  deriving DecidableEq

/-- A parameter that something was bound to. -/
structure Parameter where
  type_ : ParameterType
  null_ : Bool
  bound : Value
  deriving DecidableEq

/-- `IllegalUseException` and `InternalException`. -/
inductive BindException
  | illegalUse
  | internal
  deriving DecidableEq

namespace Parameter

/-- The overloads for the types that fit an `int`; without a statement there is an exception. -/
def bindInt (type : ParameterType) (stmt : Bool) (i : BitVec 32) : Except BindException Parameter :=
  if stmt then .ok ⟨type, false, sqlite3BindInt i⟩ else .error .illegalUse

def bindBool (stmt : Bool) (v : Bool) : Except BindException Parameter := bindInt .bool stmt (if v then 1 else 0)

/-- `char` is signed or not, as the platform has it. -/
def bindChar (signed stmt : Bool) (v : BitVec 8) : Except BindException Parameter :=
  bindInt .char stmt (if signed then v.signExtend 32 else v.setWidth 32)

def bindByte (stmt : Bool) (v : BitVec 8) : Except BindException Parameter := bindInt .byte stmt (v.setWidth 32)

def bindShort (stmt : Bool) (v : BitVec 16) : Except BindException Parameter := bindInt .short stmt (v.signExtend 32)

def bindUShort (stmt : Bool) (v : BitVec 16) : Except BindException Parameter := bindInt .ushort stmt (v.setWidth 32)

def bindLong (stmt : Bool) (v : BitVec 32) : Except BindException Parameter := bindInt .long stmt v

def bindULong (stmt : Bool) (v : BitVec 32) : Except BindException Parameter := bindInt .ulong stmt v

def bindLongLong (stmt : Bool) (v : BitVec 64) : Except BindException Parameter :=
  if stmt then .ok ⟨.longlong, false, sqlite3BindInt64 v⟩ else .error .illegalUse

def bindNull (stmt : Bool) : Except BindException Parameter :=
  if stmt then .ok ⟨.unknown, true, .null⟩ else .error .illegalUse

def bindString (stmt : Bool) (v : List UInt8) : Except BindException Parameter :=
  if stmt then
    if v.length ≠ 0 then
      match sqlite3BindText v (toInt v.length) with
      | some bound => .ok ⟨.string, false, bound⟩
      | none => .error .internal
    else bindNull stmt
  else .error .illegalUse

end Parameter

namespace Query

variable (cast : List UInt8 → BitVec 64)

/-- The overloads that read an `int`; without a row there is an exception. -/
def getInt {α : Type} (f : BitVec 32 → α) (row : Option Value) : Option α := row.map fun v => f (sqlite3ColumnInt cast v)

def getBool : Option Value → Option Bool := getInt cast fun i => i != 0

/-- The overloads that read a character: the first one of the text, or the zero behind it. -/
def getByteOfText (row : Option Value) : Option (BitVec 8) :=
  row.bind fun v => (sqlite3ColumnText v).map fun s => (s.headD 0).toBitVec

def getChar : Option Value → Option (BitVec 8) := getByteOfText

def getByte : Option Value → Option (BitVec 8) := getByteOfText

def getShort : Option Value → Option (BitVec 16) := getInt cast fun i => i.setWidth 16

def getUShort : Option Value → Option (BitVec 16) := getInt cast fun i => i.setWidth 16

def getLong : Option Value → Option (BitVec 32) := getInt cast id

def getULong : Option Value → Option (BitVec 32) := getInt cast id

def getLongLong (row : Option Value) : Option (BitVec 64) := row.map (sqlite3ColumnInt64 cast)

def getString (row : Option Value) : Option (List UInt8) :=
  row.map fun v =>
    match sqlite3ColumnText v with
    | some s => if 0 < sqlite3ColumnBytes v then s.take (sqlite3ColumnBytes v).toNat else []
    | none => []

end Query

/-! ## Types and their values -/

/-- The types that are bound and read back. -/
inductive DataType
  | bool
  | char
  | byte
  | short
  | ushort
  | long
  | ulong
  | longlong
  | string
  deriving DecidableEq

def DataType.Val : DataType → Type
  | .bool => Bool
  | .char | .byte => BitVec 8
  | .short | .ushort => BitVec 16
  | .long | .ulong => BitVec 32
  | .longlong => BitVec 64
  | .string => List UInt8

/-- `Parameter::bind`, for a statement. -/
def bind (signed : Bool) : (t : DataType) → t.Val → Except BindException Parameter
  | .bool => Parameter.bindBool true
  | .char => Parameter.bindChar signed true
  | .byte => Parameter.bindByte true
  | .short => Parameter.bindShort true
  | .ushort => Parameter.bindUShort true
  | .long => Parameter.bindLong true
  | .ulong => Parameter.bindULong true
  | .longlong => Parameter.bindLongLong true
  | .string => Parameter.bindString true

/-- `Query::getData`, from a row. -/
def getData (cast : List UInt8 → BitVec 64) : (t : DataType) → Option Value → Option t.Val
  | .bool => Query.getBool cast
  | .char => Query.getChar
  | .byte => Query.getByte
  | .short => Query.getShort cast
  | .ushort => Query.getUShort cast
  | .long => Query.getLong cast
  | .ulong => Query.getULong cast
  | .longlong => Query.getLongLong cast
  | .string => Query.getString

/-- The integer that a value is, if its type is one of integers. -/
def DataType.int (signed : Bool) : (t : DataType) → t.Val → Option ℤ
  | .bool => fun v : Bool => some (if v then 1 else 0)
  | .char => fun v : BitVec 8 => some (if signed then v.toInt else v.toNat)
  | .byte => fun v : BitVec 8 => some v.toNat
  | .short => fun v : BitVec 16 => some v.toInt
  | .ushort => fun v : BitVec 16 => some v.toNat
  | .long => fun v : BitVec 32 => some v.toInt
  | .ulong => fun v : BitVec 32 => some v.toNat
  | .longlong => fun v : BitVec 64 => some v.toInt
  | .string => fun _ => none

/-- The value is read back, and as a `LONGLONG` it is the integer that it is. -/
def Agree (cast : List UInt8 → BitVec 64) (signed : Bool) (t : DataType) (v : t.Val) : Prop :=
  ∃ p, bind signed t v = .ok p ∧ getData cast t (some p.bound) = some v ∧
    ∀ n, t.int signed v = some n → (Query.getLongLong cast (some p.bound)).map BitVec.toInt = some n

/-- The values that are kept. -/
def Kept : (t : DataType) → t.Val → Prop
  | .bool | .short | .ushort | .long | .longlong => fun _ => True
  | .char | .byte => fun v : BitVec 8 => v = 53#8
  | .ulong => fun v : BitVec 32 => v.toNat < 2 ^ 31
  | .string => fun v : List UInt8 => v.length ≤ 1000000000

/-! ## What is kept -/

variable {cast : List UInt8 → BitVec 64} {signed : Bool}

/-- Widening with the sign and cutting off again changes nothing. -/
theorem setWidth_signExtend {w v : ℕ} (x : BitVec w) (h : w ≤ v) : (x.signExtend v).setWidth w = x := by
  ext k hk
  rw [BitVec.getElem_setWidth, BitVec.getLsbD_signExtend]
  simp [hk, show k < v by omega]

theorem setWidth_setWidth {w v : ℕ} (x : BitVec w) (h : w ≤ v) : (x.setWidth v).setWidth w = x := by
  rw [BitVec.setWidth_setWidth_of_le x h, BitVec.setWidth_eq]

/-- An `int` holds every value of a narrower type without a sign. -/
theorem toInt_setWidth {w : ℕ} (x : BitVec w) (h : w < 32) : (x.setWidth 32).toInt = x.toNat := by
  have hw : 2 ^ w ≤ 2 ^ 31 := Nat.pow_le_pow_right (by decide) (by omega)
  have hx : x.toNat < 2 ^ w := x.isLt
  have hn : (x.setWidth 32).toNat = x.toNat := by
    rw [BitVec.toNat_setWidth, Nat.mod_eq_of_lt (by omega)]
  rw [BitVec.toInt_eq_toNat_of_lt (by omega), hn]

/-- What is bound as an `int` is read back as an `int`. -/
theorem columnInt_bindInt (i : BitVec 32) : sqlite3ColumnInt cast (sqlite3BindInt i) = i :=
  setWidth_signExtend i (by decide)

/-- And as a wider integer it is the one that the `int` is. -/
theorem columnInt64_bindInt (i : BitVec 32) : (sqlite3ColumnInt64 cast (sqlite3BindInt i)).toInt = i.toInt := by
  show (i.signExtend 64).toInt = i.toInt
  exact BitVec.toInt_signExtend_of_le (by decide)

/-- A type that is bound as an `int` agrees when it is read back and the `int` is the integer. -/
theorem agree_of_bindInt {t : DataType} {v : t.Val} {pt : ParameterType} {i : BitVec 32}
    (hb : bind signed t v = .ok ⟨pt, false, sqlite3BindInt i⟩) :
    Agree cast signed t v ↔
      getData cast t (some (sqlite3BindInt i)) = some v ∧ ∀ n, t.int signed v = some n → i.toInt = n := by
  have hl : (Query.getLongLong cast (some (sqlite3BindInt i))).map BitVec.toInt = some i.toInt :=
    congrArg some (columnInt64_bindInt i)
  constructor
  · rintro ⟨p, hp, hr, hn⟩
    obtain rfl : p = ⟨pt, false, sqlite3BindInt i⟩ := Except.ok.inj (hp.symm.trans hb)
    refine ⟨hr, fun n hv => ?_⟩
    exact Option.some.inj (hl.symm.trans (hn n hv))
  · rintro ⟨hr, hn⟩
    refine ⟨_, hb, hr, fun n hv => ?_⟩
    rw [← hn n hv]
    exact hl

/-- Reading an `int` back as one. -/
theorem getInt_bindInt {α : Type} (f : BitVec 32 → α) (i : BitVec 32) :
    Query.getInt cast f (some (sqlite3BindInt i)) = some (f i) := by
  show some (f (sqlite3ColumnInt cast (sqlite3BindInt i))) = _
  rw [columnInt_bindInt]

/-! ## The types, one by one -/

theorem agree_bool (v : Bool) : Agree cast signed .bool v := by
  refine (agree_of_bindInt rfl).2 ⟨?_, fun n hn => ?_⟩
  · show Query.getBool cast _ = some v
    rw [Query.getBool, getInt_bindInt]
    cases v <;> rfl
  · obtain rfl := Option.some.inj hn
    cases v <;> rfl

theorem agree_short (v : BitVec 16) : Agree cast signed .short v := by
  refine (agree_of_bindInt rfl).2 ⟨?_, fun n hn => ?_⟩
  · refine (getInt_bindInt _ _).trans (congrArg some ?_)
    exact setWidth_signExtend v (by decide)
  · obtain rfl := Option.some.inj hn
    exact BitVec.toInt_signExtend_of_le (by decide)

theorem agree_ushort (v : BitVec 16) : Agree cast signed .ushort v := by
  refine (agree_of_bindInt rfl).2 ⟨?_, fun n hn => ?_⟩
  · refine (getInt_bindInt _ _).trans (congrArg some ?_)
    exact setWidth_setWidth v (by decide)
  · obtain rfl := Option.some.inj hn
    exact toInt_setWidth v (by decide)

theorem agree_long (v : BitVec 32) : Agree cast signed .long v := by
  refine (agree_of_bindInt rfl).2 ⟨getInt_bindInt _ _, fun n hn => ?_⟩
  obtain rfl := Option.some.inj hn
  rfl

theorem agree_longlong (v : BitVec 64) : Agree cast signed .longlong v := by
  refine ⟨_, rfl, rfl, fun n hn => ?_⟩
  obtain rfl := Option.some.inj hn
  rfl

/-- From half of the range on the `int` is negative. -/
theorem agree_ulong (v : BitVec 32) : Agree cast signed .ulong v ↔ v.toNat < 2 ^ 31 := by
  have hv : v.toInt = v.toNat ↔ v.toNat < 2 ^ 31 := by
    rw [BitVec.toInt_eq_toNat_cond]
    have hlt : v.toNat < 2 ^ 32 := v.isLt
    split <;> omega
  rw [← hv]
  refine (agree_of_bindInt rfl).trans ⟨fun h => h.2 _ rfl, fun h => ⟨getInt_bindInt _ _, fun n hn => ?_⟩⟩
  obtain rfl := Option.some.inj hn
  exact h

/-- The first character of a decimal text is the character with the code only for `5`, which is 53. -/
theorem headD_decimal_signed : ∀ v : BitVec 8,
    ((decimal (v.signExtend 32).toInt).headD 0).toBitVec = v ↔ v = 53#8 := by decide +kernel

theorem headD_decimal_unsigned : ∀ v : BitVec 8,
    ((decimal (v.setWidth 32).toInt).headD 0).toBitVec = v ↔ v = 53#8 := by decide +kernel

/-- What is read back as a character is the first of the decimal text. -/
theorem getByteOfText_bindInt (i : BitVec 32) :
    Query.getByteOfText (some (sqlite3BindInt i)) = some ((decimal i.toInt).headD 0).toBitVec := by
  show some ((decimal (i.signExtend 64).toInt).headD 0).toBitVec = _
  rw [BitVec.toInt_signExtend_of_le (by decide)]

theorem agree_char (v : BitVec 8) : Agree cast signed .char v ↔ v = 53#8 := by
  refine (agree_of_bindInt rfl).trans ?_
  constructor
  · rintro ⟨hr, -⟩
    have hc := Option.some.inj ((getByteOfText_bindInt _).symm.trans hr)
    cases signed
    · exact (headD_decimal_unsigned v).1 hc
    · exact (headD_decimal_signed v).1 hc
  · rintro rfl
    refine ⟨(getByteOfText_bindInt _).trans (congrArg some ?_), fun n hn => ?_⟩
    · cases signed
      · exact (headD_decimal_unsigned _).2 rfl
      · exact (headD_decimal_signed _).2 rfl
    · obtain rfl := Option.some.inj hn
      cases signed <;> decide

theorem agree_byte (v : BitVec 8) : Agree cast signed .byte v ↔ v = 53#8 := by
  refine (agree_of_bindInt rfl).trans ?_
  constructor
  · rintro ⟨hr, -⟩
    exact (headD_decimal_unsigned v).1 (Option.some.inj ((getByteOfText_bindInt _).symm.trans hr))
  · rintro rfl
    refine ⟨(getByteOfText_bindInt _).trans (congrArg some ?_), fun n hn => ?_⟩
    · exact (headD_decimal_unsigned _).2 rfl
    · obtain rfl := Option.some.inj hn
      decide

/-- What is read back is no longer than the text is. -/
theorem length_getString {t s : List UInt8} (h : Query.getString (some (.text t)) = some s) : s.length ≤ t.length := by
  simp only [Query.getString, Option.map_some, Option.some.injEq, sqlite3ColumnText] at h
  split at h
  · subst h
    exact (List.take_sublist _ t).length_le
  · subst h
    exact Nat.zero_le _

/-- What has been bound is within the limit. -/
theorem length_bindText {s : List UInt8} {n : ℤ} {x : Value} (h : sqlite3BindText s n = some x) :
    ∃ t : List UInt8, x = .text t ∧ t.length ≤ sqliteMaxLength := by
  simp only [sqlite3BindText] at h
  generalize (if n < 0 then sqlite3Strlen30 s else n.toNat) = nByte at h
  split at h
  · cases h
  · next hle =>
    obtain rfl := Option.some.inj h
    exact ⟨_, rfl, (List.length_take_le nByte s).trans (not_lt.mp hle)⟩

/-- What is within the limit is bound as it is. -/
theorem bindText_of_length_le {s : List UInt8} (h : s.length ≤ sqliteMaxLength) :
    sqlite3BindText s (toInt s.length) = some (.text s) := by
  have hl : toInt s.length = s.length := toInt_eq_iff.2 (lt_of_le_of_lt h (by decide))
  have hthere : ¬ (s.length : ℤ) < 0 := by omega
  simp only [sqlite3BindText]
  rw [hl, if_neg hthere, Int.toNat_natCast, if_neg (not_lt.mpr h), List.take_length]

/-- And is kept. -/
theorem getString_text {s : List UInt8} (h : s.length ≤ sqliteMaxLength) : Query.getString (some (.text s)) = some s := by
  have hb : sqlite3ColumnBytes (.text s) = s.length := toInt_eq_iff.2 (lt_of_le_of_lt h (by decide))
  show some (if 0 < sqlite3ColumnBytes (.text s) then s.take (sqlite3ColumnBytes (.text s)).toNat else []) = some s
  rw [hb]
  split
  · rw [Int.toNat_natCast, List.take_length]
  · rw [List.length_eq_zero_iff.1 (show s.length = 0 by omega)]

/-- A string of no length comes back as one from the null that stands for it. -/
theorem agree_string (v : List UInt8) : Agree cast signed .string v ↔ v.length ≤ sqliteMaxLength := by
  constructor
  · rintro ⟨p, hp, hr, -⟩
    have hp : Parameter.bindString true v = .ok p := hp
    have hr : Query.getString (some p.bound) = some v := hr
    by_cases h0 : v.length = 0
    · omega
    rw [Parameter.bindString, if_pos rfl, if_pos h0] at hp
    split at hp
    · next x hx =>
      obtain ⟨t, rfl, ht⟩ := length_bindText hx
      obtain rfl := Except.ok.inj hp
      exact (length_getString hr).trans ht
    · cases hp
  · intro h
    rcases eq_or_ne v.length 0 with h0 | h0
    · obtain rfl := List.length_eq_zero_iff.1 h0
      exact ⟨_, rfl, rfl, fun n hn => by cases hn⟩
    · have hb : bind signed .string v = .ok ⟨.string, false, .text v⟩ := by
        show Parameter.bindString true v = _
        rw [Parameter.bindString, if_pos rfl, if_pos h0, bindText_of_length_le h]
      exact ⟨_, hb, getString_text h, fun n hn => by cases hn⟩

/-- **Agreement.**  A value that is bound is what is read back, and the integer that it is, for every value of a
boolean, of a short, of a long and of a long long; for a character or a byte only when it is 53; for an unsigned long
when it fits an `int`; and for a string when it is within the limit of SQLite. -/
theorem agree_iff (cast : List UInt8 → BitVec 64) (signed : Bool) (t : DataType) (v : t.Val) :
    Agree cast signed t v ↔ Kept t v := by
  cases t with
  | bool => exact iff_of_true (agree_bool v) trivial
  | char => exact agree_char v
  | byte => exact agree_byte v
  | short => exact iff_of_true (agree_short v) trivial
  | ushort => exact iff_of_true (agree_ushort v) trivial
  | long => exact iff_of_true (agree_long v) trivial
  | ulong => exact agree_ulong v
  | longlong => exact iff_of_true (agree_longlong v) trivial
  | string => exact agree_string v

/-- The character `A` comes back as a `6`, the first of `65`, and the unsigned long 2³¹ is negative as a long long. -/
theorem disagree :
    Query.getChar (some (sqlite3BindInt 65#32)) = some 54#8 ∧ ¬Agree (fun _ => 0) true .char (65#8 : BitVec 8) ∧
      (Query.getLongLong (fun _ => 0) (some (sqlite3BindInt 2147483648#32))).map BitVec.toInt = some (-2147483648) ∧
      ¬Agree (fun _ => 0) true .ulong (2147483648#32 : BitVec 32) := by
  refine ⟨by decide +kernel, fun h => ?_, by decide +kernel, fun h => ?_⟩
  · exact absurd ((agree_char _).1 h) (by decide : 65#8 ≠ 53#8)
  · exact absurd ((agree_ulong _).1 h) (by decide)

end Lasagne.Ldbc
