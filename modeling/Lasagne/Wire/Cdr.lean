import Mathlib.Algebra.Group.Nat.Defs
import Mathlib.Data.List.TakeWhile

/-!
# Lasagne.Wire.Cdr — big-endian CDR, as codecs that carry their round trip

A `Codec` writes a value at a position of a stream, after the bytes that align it, and reads it back.  Its law is
a field, so that a codec that loses a value cannot be built, and a struct is the product of the codecs of its
members.  The law stops at streams of `2 ^ 32` bytes, where a length does not fit its field.
-/

namespace Lasagne.Wire

variable {α β : Type*}

/-- How many bytes align the position `pos` to a multiple of `n`. -/
def padding (n pos : ℕ) : ℕ := (n - pos % n) % n

/-- A way to write a value at a position, and to read it back from there. -/
structure Codec (α : Type*) where
  write : ℕ → α → List UInt8
  read : ℕ → List UInt8 → Option (α × List UInt8)
  /-- what follows is left for the next reader -/
  read_write : ∀ (pos : ℕ) (a : α) (rest : List UInt8), (write pos a).length < 2 ^ 32 →
    read pos (write pos a ++ rest) = some (a, rest)

namespace Codec

/-! ## Members of a struct -/

/-- One value after the other. -/
def prod (c : Codec α) (d : Codec β) : Codec (α × β) where
  write pos x := c.write pos x.1 ++ d.write (pos + (c.write pos x.1).length) x.2
  read pos bs := (c.read pos bs).bind fun r =>
    (d.read (pos + (bs.length - r.2.length)) r.2).map fun t => ((r.1, t.1), t.2)
  read_write pos x rest hlt := by
    obtain ⟨a, b⟩ := x
    simp only [List.length_append] at hlt
    have hfirst := c.read_write pos a (d.write (pos + (c.write pos a).length) b ++ rest) (by omega)
    have hsecond := d.read_write (pos + (c.write pos a).length) b rest (by omega)
    have hpos : (c.write pos a ++ (d.write (pos + (c.write pos a).length) b ++ rest)).length -
        (d.write (pos + (c.write pos a).length) b ++ rest).length = (c.write pos a).length := by
      rw [List.length_append, Nat.add_sub_cancel]
    simp only [List.append_assoc]
    rw [hfirst, Option.bind_some, hpos, hsecond]
    rfl

/-- The same bytes, for another type. -/
def map (c : Codec α) (f : α → β) (g : β → α) (hfg : ∀ b, f (g b) = b) : Codec β where
  write pos b := c.write pos (g b)
  read pos bs := (c.read pos bs).map fun r => (f r.1, r.2)
  read_write pos b rest hlt := by
    rw [c.read_write pos (g b) rest hlt, Option.map_some, hfg]

/-! ## Numbers -/

/-- The bytes that align a value, dropped by its reader. -/
def aligned (n : ℕ) (c : Codec α) : Codec α where
  write pos a := List.replicate (padding n pos) 0 ++ c.write (pos + padding n pos) a
  read pos bs := c.read (pos + padding n pos) (bs.drop (padding n pos))
  read_write pos a rest hlt := by
    simp only [List.length_append, List.length_replicate] at hlt
    rw [List.append_assoc, List.drop_left' List.length_replicate]
    exact c.read_write _ a rest (by omega)

/-- Two bytes, the high one first. -/
def bytes2 : Codec UInt16 where
  write _ x := [UInt8.ofNat (x.toNat / 256), UInt8.ofNat x.toNat]
  read _
    | a :: b :: rest => some (UInt16.ofNat (a.toNat * 256 + b.toNat), rest)
    | _ => none
  read_write pos x rest _ := by
    have hx : x.toNat < 65536 := x.toNat_lt
    have hnat : (x.toNat / 256 % 256) * 256 + x.toNat % 256 = x.toNat := by omega
    simp only [List.cons_append, List.nil_append, UInt8.toNat_ofNat', Nat.reducePow]
    rw [hnat, UInt16.ofNat_toNat]

/-- Four bytes, the high one first. -/
def bytes4 : Codec UInt32 where
  write _ x := [UInt8.ofNat (x.toNat / 2 ^ 24), UInt8.ofNat (x.toNat / 2 ^ 16), UInt8.ofNat (x.toNat / 2 ^ 8),
    UInt8.ofNat x.toNat]
  read _
    | a :: b :: c :: d :: rest =>
      some (UInt32.ofNat (((a.toNat * 256 + b.toNat) * 256 + c.toNat) * 256 + d.toNat), rest)
    | _ => none
  read_write pos x rest _ := by
    have hx : x.toNat < 4294967296 := x.toNat_lt
    have hnat : (((x.toNat / 16777216 % 256) * 256 + x.toNat / 65536 % 256) * 256 + x.toNat / 256 % 256) * 256 +
        x.toNat % 256 = x.toNat := by omega
    simp only [List.cons_append, List.nil_append, UInt8.toNat_ofNat', Nat.reducePow]
    rw [hnat, UInt32.ofNat_toNat]

/-- Read as two numbers of two bytes, a number of four is its high half and its low half. -/
theorem bytes4_eq (pos n : ℕ) : bytes4.write pos (UInt32.ofNat n) =
    bytes2.write pos (UInt16.ofNat (n / 2 ^ 16)) ++ bytes2.write (pos + 2) (UInt16.ofNat n) := by
  have hbyte : ∀ {i j : ℕ}, i % 256 = j % 256 → UInt8.ofNat i = UInt8.ofNat j := by
    intro i j hij
    apply UInt8.toNat_inj.mp
    rw [UInt8.toNat_ofNat', UInt8.toNat_ofNat']
    exact hij
  simp only [bytes4, bytes2, UInt32.toNat_ofNat', UInt16.toNat_ofNat', List.cons_append, List.nil_append,
    List.cons.injEq, and_true]
  refine ⟨hbyte ?_, hbyte ?_, hbyte ?_, hbyte ?_⟩
  all_goals omega

/-- `unsigned short`. -/
def ushort : Codec UInt16 := aligned 2 bytes2

/-- `unsigned long`. -/
def ulong : Codec UInt32 := aligned 4 bytes4

theorem padding_lt {n : ℕ} (hn : 0 < n) (pos : ℕ) : padding n pos < n := Nat.mod_lt _ hn

theorem length_bytes2 (pos : ℕ) (x : UInt16) : (bytes2.write pos x).length = 2 := rfl

theorem length_bytes4 (pos : ℕ) (x : UInt32) : (bytes4.write pos x).length = 4 := rfl

theorem length_aligned (n : ℕ) (c : Codec α) (pos : ℕ) (a : α) :
    ((aligned n c).write pos a).length = padding n pos + (c.write (pos + padding n pos) a).length := by
  simp [aligned]

/-- A number is never too long. -/
theorem bytes4_read_write (pos : ℕ) (x : UInt32) (rest : List UInt8) :
    bytes4.read pos (bytes4.write pos x ++ rest) = some (x, rest) := by
  refine bytes4.read_write pos x rest ?_
  rw [length_bytes4]
  omega

theorem ushort_read_write (pos : ℕ) (x : UInt16) (rest : List UInt8) :
    ushort.read pos (ushort.write pos x ++ rest) = some (x, rest) := by
  have hpad := padding_lt (n := 2) (by omega) pos
  refine ushort.read_write pos x rest ?_
  rw [ushort, length_aligned, length_bytes2]
  omega

theorem ulong_read_write (pos : ℕ) (x : UInt32) (rest : List UInt8) :
    ulong.read pos (ulong.write pos x ++ rest) = some (x, rest) := by
  have hpad := padding_lt (n := 4) (by omega) pos
  refine ulong.read_write pos x rest ?_
  rw [ulong, length_aligned, length_bytes4]
  omega

end Codec

/-! ## Strings -/

/-- A string of C: no byte of it is the one that ends it. -/
structure CString where
  bytes : List UInt8
  nul_notMem : 0 ∉ bytes
deriving DecidableEq

/-- The string that starts here. -/
def CString.of (bs : List UInt8) : CString where
  bytes := bs.takeWhile (· ≠ 0)
  nul_notMem h := by simpa using List.mem_takeWhile_imp h

theorem CString.of_bytes (s : CString) (rest : List UInt8) : CString.of (s.bytes ++ 0 :: rest) = s := by
  obtain ⟨bytes, hnul⟩ := s
  have htake : (bytes ++ 0 :: rest).takeWhile (· ≠ 0) = bytes := by
    rw [List.takeWhile_append_of_pos]
    · simp
    · intro b hb
      simpa using fun heq : b = 0 => hnul (heq ▸ hb)
  simp only [CString.of, htake]

namespace Codec

/-- The length with the byte that ends the string, and the bytes; a reader takes the length `0` for the empty
string. -/
def string : Codec CString where
  write pos s := ulong.write pos (UInt32.ofNat (s.bytes.length + 1)) ++ (s.bytes ++ [0])
  read pos bs := (ulong.read pos bs).bind fun r =>
    if r.1 = 0 then some (⟨[], by simp⟩, r.2)
    else if r.1.toNat ≤ r.2.length then some (CString.of (r.2.take r.1.toNat), r.2.drop r.1.toNat) else none
  read_write pos s rest hlt := by
    simp only [List.length_append, List.length_singleton] at hlt
    have hnat : (UInt32.ofNat (s.bytes.length + 1)).toNat = (s.bytes ++ [0]).length := by
      rw [UInt32.toNat_ofNat', List.length_append, List.length_singleton]
      exact Nat.mod_eq_of_lt (by omega)
    have hne : UInt32.ofNat (s.bytes.length + 1) ≠ 0 := by
      intro hzero
      rw [hzero] at hnat
      simp at hnat
    have hulong := ulong_read_write pos (UInt32.ofNat (s.bytes.length + 1)) ((s.bytes ++ [0]) ++ rest)
    rw [List.append_assoc, hulong, Option.bind_some, if_neg hne, if_pos]
    · dsimp only
      rw [hnat, List.take_left' rfl, List.drop_left' rfl, s.of_bytes]
    · rw [hnat]
      simp

end Codec

end Lasagne.Wire
