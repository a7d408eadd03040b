import Mathlib.Algebra.Order.Floor.Div
import Mathlib.Order.Bounds.Basic
import Soi.Proofs.SystemPlikow.VFS

/-!
# `Soi.Proofs.SystemPlikow.Geometry`: for which sizes a new disk is as it should be

`exactLength` is the length of a disk in integers: the superblock, the directory, the bitmap, which
is rounded up twice, and the data. `create_VFS` computes it with wrapping words. For the size 0 the
first subtraction wraps, and the disk has 1049602 blocks. From 1048535 blocks on the length does not
fit into `disk_file_size`, and from 1048576 blocks on the product in `DATA_SIZE_DISK_BYTES` wraps
too. `createVFS_exact_iff` says that there is nothing else.
-/

set_option autoImplicit false

namespace Soi.SystemPlikow

open Soi.Lib

/-- The length of a disk of `n` blocks. -/
def exactLength (n : Nat) : Nat := (1 + 8 + n ⌈/⌉ 8 ⌈/⌉ 4096 + n) * 4096

/-- The geometry of a disk for `size` bytes. -/
structure Exact (size : UInt32) (f : ByteFile) : Prop where
  /-- The number of blocks is the least one that has room for the size. -/
  blocks : if size = 0 then (readSuperblock f).nDatablocks.toNat ≤ 1 else
    IsLeast {m | size.toNat ≤ m * fileDataChunkSize.toNat} (readSuperblock f).nDatablocks.toNat
  length : f.length = exactLength (readSuperblock f).nDatablocks.toNat
  /-- The length is a `size_type`. -/
  fits : f.length < 2 ^ 32
  /-- The comparison in `open_and_read_VFS` is false. -/
  sizeCheck : ¬ (UInt32.ofNat f.length).toUInt64
    ≠ predictedVFSFileSize (readSuperblock f).nDatablocks

/-- The exact length, with the divisions rounded up written as those of the macros. -/
theorem exactLength_eq {n : Nat} (hpos : 1 ≤ n) :
    exactLength n = 36864 + (((n + 7) / 8 - 1) / 4096 + 1) * 4096 + n * 4096 := by
  rw [exactLength, Nat.ceilDiv_eq_add_pred_div, Nat.ceilDiv_eq_add_pred_div]
  omega

/-- The disks that are shorter than 2^32 bytes. -/
theorem exactLength_lt_iff {n : Nat} : exactLength n < 2 ^ 32 ↔ n ≤ 1048534 := by
  rw [exactLength, Nat.ceilDiv_eq_add_pred_div, Nat.ceilDiv_eq_add_pred_div]
  omega

/-- The quotient, rounded up, is the least number of chunks. -/
theorem isLeast_chunks (size : Nat) :
    IsLeast {m | size ≤ m * fileDataChunkSize.toNat} ((size + 4091) / 4092) := by
  have hchunk : fileDataChunkSize.toNat = 4092 := by decide
  rw [hchunk]
  constructor
  · show size ≤ (size + 4091) / 4092 * 4092
    omega
  · intro m hm
    have hle : size ≤ m * 4092 := hm
    omega

/-- For the size 0 the subtraction wraps. -/
theorem fileChunksNeededForBytes_zero :
    (fileChunksNeededForBytes 0).toUInt32 = 1049602 := by decide

/-- Up to the size where the file does not fit below 2^32 bytes any more, the disk of `create_VFS`
has the blocks that are needed and the length of its regions. -/
theorem exact_freshDisk {size : UInt32} (hsize : size ≠ 0) (hle : size.toNat ≤ 4290601128) :
    Exact size (freshDisk (fileChunksNeededForBytes size).toUInt32) := by
  have hpos : size.toNat ≠ 0 := fun h0 => hsize (UInt32.toNat_inj.mp h0)
  have hchunks := toNat_fileChunksNeededForBytes hsize
  set n := (fileChunksNeededForBytes size).toUInt32 with hn
  have hn₁ : 1 ≤ n.toNat := by omega
  have hn₂ : n.toNat ≤ 1048534 := by omega
  have hlt := predicted_lt hn₁ hn₂
  have hlength : (freshDisk n).length = (predictedVFSFileSize n).toNat := rfl
  have hsuper : (readSuperblock (freshDisk n)).nDatablocks = n := by rw [readSuperblock_freshDisk]
  constructor
  · rw [if_neg hsize, hsuper, hchunks]
    exact isLeast_chunks size.toNat
  · rw [hsuper, hlength, predicted_of_le hn₁ hn₂, exactLength_eq hn₁]
  · rw [hlength]
    exact hlt
  · rw [not_not, sizeCheck_iff, hsuper, hlength]
    exact Nat.mod_eq_of_lt hlt

/-- The disk of `create_VFS` for a size is as it should be just for the sizes from 1 to 4290601128,
which are those of at most 1048534 blocks. -/
theorem createVFS_exact_iff (size : UInt32) :
    (∃ f, createVFS true size = .ok f ∧ Exact size f) ↔
      1 ≤ size.toNat ∧ size.toNat ≤ 4290601128 := by
  constructor
  · rintro ⟨f, hcreate, hexact⟩
    obtain rfl := Except.ok.inj ((createVFS_ok size).symm.trans hcreate)
    have hblocks := hexact.blocks
    have hfits := hexact.length ▸ hexact.fits
    rw [exactLength_lt_iff] at hfits
    rw [readSuperblock_freshDisk] at hblocks hfits
    have hsize : size ≠ 0 := by
      rintro rfl
      rw [if_pos rfl, fileChunksNeededForBytes_zero] at hblocks
      exact absurd hblocks (by decide)
    have hpos : size.toNat ≠ 0 := fun h0 => hsize (UInt32.toNat_inj.mp h0)
    -- The length decides how many blocks there are, and they decide the size.
    rw [toNat_fileChunksNeededForBytes hsize] at hfits
    omega
  · rintro ⟨hpos, hle⟩
    have hsize : size ≠ 0 := by
      rintro rfl
      exact absurd hpos (by decide)
    exact ⟨_, createVFS_ok size, exact_freshDisk hsize hle⟩

/-- The sizes 0 and 4294967295 give the same disk. It has 1049602 blocks, which is right for the
second one, and a length of 4374528 bytes instead of 4299341824. -/
theorem createVFS_not_exact : (¬ ∀ size, ∃ f, createVFS true size = .ok f ∧ Exact size f) ∧
    ∃ f, createVFS true 0 = .ok f ∧ createVFS true 4294967295 = .ok f ∧
      (readSuperblock f).nDatablocks = 1049602 ∧ f.length = 4374528 ∧
      exactLength 1049602 = 4299341824 := by
  constructor
  · intro hcreates
    obtain ⟨f, hcreate, hexact⟩ := hcreates 0
    obtain rfl := Except.ok.inj ((createVFS_ok 0).symm.trans hcreate)
    have hblocks := hexact.blocks
    rw [if_pos rfl, readSuperblock_freshDisk, fileChunksNeededForBytes_zero] at hblocks
    exact absurd hblocks (by decide)
  · have hlarge : (fileChunksNeededForBytes 4294967295).toUInt32 = 1049602 := by decide
    refine ⟨freshDisk 1049602, ?_, ?_, ?_, by decide, by decide⟩
    · rw [createVFS_ok, fileChunksNeededForBytes_zero]
    · rw [createVFS_ok, hlarge]
    · rw [readSuperblock_freshDisk]

end Soi.SystemPlikow
