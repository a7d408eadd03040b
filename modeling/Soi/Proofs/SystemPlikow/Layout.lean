import Soi.SystemPlikow.Layout

/-!
# `Soi.Proofs.SystemPlikow.Layout`: the values of the macros

`toNat_predictedVFSFileSize` is the predicted length for any number of blocks: only the two
products are computed with 32 bits. On the disks of `create_VFS` that are shorter than 2^32 bytes
nothing wraps (`predicted_of_le`).
-/

set_option autoImplicit false

namespace Soi.SystemPlikow

/-- The superblock is at the start of the file. -/
@[simp] theorem toNat_superblockOffset : superblockOffset.toNat = 0 := rfl

/-- The root directory starts behind the block of the superblock. -/
@[simp] theorem toNat_rootdirByteOffset : rootdirByteOffset.toNat = 4096 := by decide

/-- A descriptor has 24 bytes for the name, and two words. -/
@[simp] theorem toNat_sizeofFiledescriptor : sizeofFiledescriptor.toNat = 32 := by decide

/-- The root directory has 1024 descriptors. -/
@[simp] theorem toNat_sizeofRootdir : sizeofRootdir.toNat = 32768 := by decide

/-- The bitmap starts behind the superblock and the root directory. -/
@[simp] theorem toNat_bitmapByteOffset : bitmapByteOffset.toNat = 36864 := by decide

/-- The sum of the prediction has 64 bits and does not wrap. -/
theorem toNat_predictedVFSFileSize (n : UInt32) : (predictedVFSFileSize n).toNat
    = 36864 + (bitmapSizeDiskBytes n).toNat + (dataSizeDiskBytes n).toNat := by
  have h₁ := (bitmapSizeDiskBytes n).toNat_lt
  have h₂ := (dataSizeDiskBytes n).toNat_lt
  -- Both products are below 2^32, and the sum is taken with 64 bits.
  rw [predictedVFSFileSize, dataByteOffset, UInt64.toNat_add, UInt64.toNat_add,
    toNat_bitmapByteOffset, UInt32.toNat_toUInt64, UInt32.toNat_toUInt64]
  omega

/-- The subtraction in the rounded-up quotients does not wrap, unless it is from 0. -/
theorem toNat_pred {nb : UInt32} (h : 1 ≤ nb.toNat) : (nb - 1).toNat = nb.toNat - 1 := by
  have hle : 1 ≤ nb := UInt32.le_iff_toNat_le.mpr h
  rw [UInt32.toNat_sub_of_le nb 1 hle, UInt32.toNat_one]

/-- The number of blocks for a size that is not 0 is the quotient, rounded up. -/
theorem toNat_fileChunks {size : UInt32} (hpos : 1 ≤ size.toNat) :
    (fileChunksNeededForBytes size).toNat = (size.toNat + 4091) / 4092 := by
  have hlt := size.toNat_lt
  have hchunk : fileDataChunkSize.toNat = 4092 := by decide
  rw [fileChunksNeededForBytes, UInt64.toNat_add, UInt64.toNat_div, UInt32.toNat_toUInt64,
    toNat_pred hpos, hchunk, UInt64.toNat_one]
  omega

/-- As a `size_type` it is the same. -/
theorem toNat_fileChunksNeededForBytes {size : UInt32} (h : size ≠ 0) :
    (fileChunksNeededForBytes size).toUInt32.toNat = (size.toNat + 4091) / 4092 := by
  have hpos : size.toNat ≠ 0 := fun h0 => h (UInt32.toNat_inj.mp h0)
  have hlt := size.toNat_lt
  rw [UInt64.toNat_toUInt32, toNat_fileChunks (by omega)]
  omega

section
variable {n : UInt32}

/-- The bitmap of a disk of `n` blocks. -/
theorem toNat_bitnslots (hlt : n.toNat < 2 ^ 31) :
    (bitnslots n).toNat = (n.toNat + 7) / 8 := by
  have hadd : (n + 8).toNat = n.toNat + 8 := by
    rw [UInt32.toNat_add]
    show (n.toNat + 8) % 2 ^ 32 = _
    omega
  have hsub : (n + 8 - 1).toNat = n.toNat + 7 := by
    rw [toNat_pred (by omega), hadd]
    omega
  rw [bitnslots, UInt32.toNat_div, hsub]
  rfl

/-- The bitmap takes whole blocks. -/
theorem toNat_bitmapSizeBlocks (hpos : 1 ≤ n.toNat) (hle : n.toNat ≤ 1048534) :
    (bitmapSizeBlocks n).toNat = ((n.toNat + 7) / 8 - 1) / 4096 + 1 := by
  have hslots := toNat_bitnslots (n := n) (by omega)
  have hblock : blockSize.toNat = 4096 := rfl
  have hsub : (bitnslots n - 1).toNat = (n.toNat + 7) / 8 - 1 := by
    rw [toNat_pred (by omega), hslots]
  rw [bitmapSizeBlocks, blocksNeededForBytes, bitmapSizeActualBytes, UInt32.toNat_add,
    UInt32.toNat_div, hsub, hblock, UInt32.toNat_one]
  omega

/-- The bitmap takes whole blocks of the file, as many as its bytes need. -/
theorem toNat_bitmapSizeDiskBytes (hpos : 1 ≤ n.toNat) (hle : n.toNat ≤ 1048534) :
    (bitmapSizeDiskBytes n).toNat = (((n.toNat + 7) / 8 - 1) / 4096 + 1) * 4096 := by
  have hblock : blockSize.toNat = 4096 := rfl
  -- The product does not reach 2^32 up to this number of blocks.
  rw [bitmapSizeDiskBytes, UInt32.toNat_mul, toNat_bitmapSizeBlocks hpos hle, hblock]
  omega

/-- The data takes a block of the file for each data block. -/
theorem toNat_dataSizeDiskBytes (hle : n.toNat ≤ 1048534) :
    (dataSizeDiskBytes n).toNat = n.toNat * 4096 := by
  have hblock : blockSize.toNat = 4096 := rfl
  rw [dataSizeDiskBytes, UInt32.toNat_mul, hblock]
  omega

/-- The disks of `create_VFS` that are shorter than 2^32 bytes. -/
theorem predicted_of_le (hpos : 1 ≤ n.toNat) (hle : n.toNat ≤ 1048534) :
    (predictedVFSFileSize n).toNat
      = 36864 + (((n.toNat + 7) / 8 - 1) / 4096 + 1) * 4096 + n.toNat * 4096 := by
  rw [toNat_predictedVFSFileSize, toNat_bitmapSizeDiskBytes hpos hle, toNat_dataSizeDiskBytes hle]

/-- Up to so many blocks the file is shorter than 2^32 bytes, so that its length fits into a word.
-/
theorem predicted_lt (hpos : 1 ≤ n.toNat) (hle : n.toNat ≤ 1048534) :
    (predictedVFSFileSize n).toNat < 2 ^ 32 := by
  rw [predicted_of_le hpos hle]
  omega

end

end Soi.SystemPlikow
