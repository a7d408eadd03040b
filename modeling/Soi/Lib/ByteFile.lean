import Mathlib.Data.UInt
import Mathlib.Tactic.SplitIfs

/-!
# `Soi.Lib.ByteFile`: a file of bytes with words in it

A file is its length and its bytes; what `byte` says behind the end means nothing. Words of 32 bits
are stored with the lowest byte first. `wordAt_writeWord` is the round trip, and `truncate` fills a
file that grows with zero bytes.
-/

set_option autoImplicit false

namespace Soi.Lib

/-- A file. -/
structure ByteFile where
  length : Nat
  byte : Nat → UInt8

namespace ByteFile

/-- A file without bytes. -/
def empty : ByteFile := ⟨0, fun _ => 0⟩

/-- The word in the four bytes from `off` on. -/
def wordAt (f : ByteFile) (off : Nat) : UInt32 :=
  (f.byte off).toUInt32 + (f.byte (off + 1)).toUInt32 * 0x100 +
    (f.byte (off + 2)).toUInt32 * 0x10000 + (f.byte (off + 3)).toUInt32 * 0x1000000

/-- A write of a word at `off`, which makes the file longer when it ends behind its end. -/
def writeWord (f : ByteFile) (off : Nat) (v : UInt32) : ByteFile where
  length := max f.length (off + 4)
  byte i :=
    if i = off then v.toUInt8
    else if i = off + 1 then (v >>> 8).toUInt8
    else if i = off + 2 then (v >>> 16).toUInt8
    else if i = off + 3 then (v >>> 24).toUInt8
    else f.byte i

/-- The length of the file is set. A file that grows gets zero bytes. -/
def truncate (f : ByteFile) (length : Nat) : ByteFile where
  length := length
  byte i := if i < f.length then f.byte i else 0

/-- The bytes from `off` on. -/
def extract (f : ByteFile) (off size : Nat) : List UInt8 :=
  (List.range size).map fun i => f.byte (off + i)

/-- There are `size` bytes to read at `off`, and at least one. -/
def canRead (f : ByteFile) (off size : Nat) : Bool := 0 < size && off + size ≤ f.length

variable {f : ByteFile} {off size : Nat}

/-- The test of a read, as a statement: it is not empty, and it ends in the file. -/
theorem canRead_iff : f.canRead off size = true ↔ 0 < size ∧ off + size ≤ f.length := by
  rw [canRead, Bool.and_eq_true, decide_eq_true_iff, decide_eq_true_iff]

/-- The round trip of a word: four bytes are written, and they are read back as the same word. -/
theorem wordAt_writeWord (f : ByteFile) (off : Nat) (v : UInt32) :
    (f.writeWord off v).wordAt off = v := by
  have h₁ : off + 1 ≠ off := by omega
  have h₂ : off + 2 ≠ off := by omega
  have h₃ : off + 3 ≠ off := by omega
  simp only [wordAt, writeWord, h₁, h₂, h₃, Nat.add_left_cancel_iff, if_true, if_false,
    Nat.reduceEqDiff]
  have hlt := v.toNat_lt
  rw [← UInt32.toNat_inj]
  simp [Nat.shiftRight_eq_div_pow]
  omega

/-- A word in front of the old and of the new end stays. -/
theorem wordAt_truncate {length : Nat} (h : off + 4 ≤ f.length) :
    (f.truncate length).wordAt off = f.wordAt off := by
  simp only [wordAt, truncate]
  rw [if_pos (by omega), if_pos (by omega), if_pos (by omega), if_pos (by omega)]

/-- Behind the old end there are zero bytes. -/
theorem byte_truncate_of_le {length i : Nat} (h : f.length ≤ i) :
    (f.truncate length).byte i = 0 :=
  if_neg (by omega)

/-- Where there are only zero bytes, each word is 0. -/
theorem wordAt_eq_zero (h : ∀ i, off ≤ i → f.byte i = 0) : f.wordAt off = 0 := by
  rw [wordAt, h off (by omega), h (off + 1) (by omega), h (off + 2) (by omega),
    h (off + 3) (by omega)]
  rfl

/-- Where there are only zero bytes, what is read is a list of zeros. -/
theorem extract_eq_zero (h : ∀ i, off ≤ i → f.byte i = 0) :
    f.extract off size = List.replicate size 0 := by
  rw [extract, List.map_congr_left fun i _ => h (off + i) (by omega), List.map_const',
    List.length_range]

end ByteFile

end Soi.Lib
