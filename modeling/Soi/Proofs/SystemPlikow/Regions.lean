import Soi.Lib.Tiling
import Soi.Proofs.SystemPlikow.Layout

/-!
# `Soi.Proofs.SystemPlikow.Regions`: the regions of a disk

There are two families of macros. The functions that read a disk use the offsets in bytes, and
`read_VFS_info` prints the offsets in blocks. `toNat_dataByteOffset` and `toNat_dataBlockOffset` are
their values, and they agree since the directory fills eight blocks and both round the bitmap up in
the same way. The four regions are in a row (`tiles_regions`), so that `layout_agrees` has no more
to do with the macros.
-/

set_option autoImplicit false

namespace Soi.SystemPlikow

open Soi.Lib

/-- The root directory starts at block 1. -/
@[simp] theorem toNat_rootdirBlockOffset : rootdirBlockOffset.toNat = 1 := rfl

/-- The bitmap starts at block 9. -/
@[simp] theorem toNat_bitmapBlockOffset : bitmapBlockOffset.toNat = 9 := by decide

section
variable {n : UInt32}

/-- The data starts behind the three other regions. -/
theorem toNat_dataByteOffset (hpos : 1 ≤ n.toNat) (hle : n.toNat ≤ 1048534) :
    (dataByteOffset n).toNat = 36864 + (((n.toNat + 7) / 8 - 1) / 4096 + 1) * 4096 := by
  rw [dataByteOffset, UInt64.toNat_add, toNat_bitmapByteOffset, UInt32.toNat_toUInt64,
    toNat_bitmapSizeDiskBytes hpos hle]
  omega

/-- The same place, counted in blocks. -/
theorem toNat_dataBlockOffset (hpos : 1 ≤ n.toNat) (hle : n.toNat ≤ 1048534) :
    (dataBlockOffset n).toNat = 9 + (((n.toNat + 7) / 8 - 1) / 4096 + 1) := by
  rw [dataBlockOffset, UInt64.toNat_add, toNat_bitmapBlockOffset, UInt32.toNat_toUInt64,
    toNat_bitmapSizeBlocks hpos hle]
  omega

/-- The offset of a data block: the product does not wrap for the blocks of the disk. -/
theorem toNat_dataIthBlockOffset {i : UInt32} (hpos : 1 ≤ n.toNat) (hle : n.toNat ≤ 1048534)
    (hi : i.toNat < n.toNat) :
    (dataIthBlockOffset i n).toNat = (dataByteOffset n).toNat + i.toNat * 4096 := by
  have hblock : blockSize.toNat = 4096 := rfl
  rw [dataIthBlockOffset, UInt64.toNat_add, UInt32.toNat_toUInt64, UInt32.toNat_mul, hblock,
    toNat_dataByteOffset hpos hle]
  omega

/-- The superblock, the directory, the bitmap and the data, in bytes. -/
def regions (n : UInt32) : List Extent :=
  [⟨superblockOffset.toNat, blockSize.toNat⟩,
   ⟨rootdirByteOffset.toNat, sizeofRootdir.toNat⟩,
   ⟨bitmapByteOffset.toNat, (bitmapSizeDiskBytes n).toNat⟩,
   ⟨(dataByteOffset n).toNat, (dataSizeDiskBytes n).toNat⟩]

/-- The data block `i`. -/
def dataBlock (n i : UInt32) : Extent := ⟨(dataIthBlockOffset i n).toNat, blockSize.toNat⟩

/-- Each region starts where the one before it stops. -/
theorem tiles_regions (hpos : 1 ≤ n.toNat) (hle : n.toNat ≤ 1048534) :
    Tiles 0 (regions n) (predictedVFSFileSize n).toNat := by
  have hbytes := toNat_bitmapSizeDiskBytes hpos hle
  have hdata := toNat_dataByteOffset hpos hle
  have hbitmap : bitmapByteOffset.toNat = rootdirByteOffset.toNat + sizeofRootdir.toNat := by decide
  refine ⟨rfl, by decide, hbitmap, ?_, ?_⟩
  · show (dataByteOffset n).toNat = bitmapByteOffset.toNat + (bitmapSizeDiskBytes n).toNat
    rw [hdata, hbytes, toNat_bitmapByteOffset]
  · show (dataByteOffset n).toNat + (dataSizeDiskBytes n).toNat = _
    rw [toNat_predictedVFSFileSize, hdata, hbytes]

/-- The blocks of the data region are in it, and in the order of their numbers. -/
theorem dataBlock_within (hpos : 1 ≤ n.toNat) (hle : n.toNat ≤ 1048534) {i : UInt32}
    (hi : i.toNat < n.toNat) : (dataByteOffset n).toNat ≤ (dataBlock n i).base ∧
      (dataBlock n i).stop ≤ (predictedVFSFileSize n).toNat := by
  have hoffset := toNat_dataIthBlockOffset hpos hle hi
  have hend : (predictedVFSFileSize n).toNat = (dataByteOffset n).toNat + n.toNat * 4096 := by
    rw [predicted_of_le hpos hle, toNat_dataByteOffset hpos hle]
  have hblock : blockSize.toNat = 4096 := rfl
  rw [dataBlock, Extent.stop, hoffset, hend, hblock]
  show _ ≤ _ + _ ∧ _ + _ + 4096 ≤ _
  omega

/-- A data block ends where the next one starts, or before it. -/
theorem dataBlock_lt (hpos : 1 ≤ n.toNat) (hle : n.toNat ≤ 1048534) {i j : UInt32}
    (hij : i.toNat < j.toNat) (hj : j.toNat < n.toNat) :
    (dataBlock n i).stop ≤ (dataBlock n j).base := by
  have hblock : blockSize.toNat = 4096 := rfl
  rw [dataBlock, dataBlock, Extent.stop, toNat_dataIthBlockOffset hpos hle (hij.trans hj),
    toNat_dataIthBlockOffset hpos hle hj, hblock]
  show _ + _ + 4096 ≤ _ + _
  omega

end

/-- The offsets in bytes are the offsets in blocks, in bytes. The four regions are in order, and
each byte of the file is in one of them. The bitmap has a bit for each data block, and the data
blocks are in their region and in the order of their numbers. -/
theorem layout_agrees (n : UInt32) (hpos : 1 ≤ n.toNat) (hle : n.toNat ≤ 1048534) :
    (rootdirByteOffset.toNat = blockSize.toNat * rootdirBlockOffset.toNat ∧
      bitmapByteOffset.toNat = blockSize.toNat * bitmapBlockOffset.toNat ∧
      (dataByteOffset n).toNat = blockSize.toNat * (dataBlockOffset n).toNat) ∧
    ((regions n).Pairwise fun e f => e.stop ≤ f.base) ∧
    (∀ x, cover (regions n) x = if x < (predictedVFSFileSize n).toNat then 1 else 0) ∧
    n.toNat ≤ 8 * (bitmapSizeDiskBytes n).toNat ∧
    ∀ i j : UInt32, i < j → j < n → (dataBlock n i).stop ≤ (dataBlock n j).base ∧
      (dataByteOffset n).toNat ≤ (dataBlock n i).base ∧
      (dataBlock n j).stop ≤ (predictedVFSFileSize n).toNat := by
  have htiles := tiles_regions hpos hle
  refine ⟨⟨by decide, by decide, ?_⟩, htiles.pairwise, ?_, ?_, ?_⟩
  · have hblock : blockSize.toNat = 4096 := rfl
    rw [toNat_dataByteOffset hpos hle, toNat_dataBlockOffset hpos hle, hblock]
    omega
  · intro x
    rw [htiles.cover x]
    exact if_congr (by omega) rfl rfl
  · rw [toNat_bitmapSizeDiskBytes hpos hle]
    omega
  · intro i j hij hj
    rw [UInt32.lt_iff_toNat_lt] at hij hj
    exact ⟨dataBlock_lt hpos hle hij hj, (dataBlock_within hpos hle (hij.trans hj)).1,
      (dataBlock_within hpos hle hj).2⟩

/-- A disk of two blocks. -/
theorem layout_agrees_two : (dataByteOffset 2).toNat = blockSize.toNat * (dataBlockOffset 2).toNat ∧
    (dataBlock 2 0).stop ≤ (dataBlock 2 1).base := by
  obtain ⟨⟨-, -, hbyte⟩, -, -, -, hblocks⟩ := layout_agrees 2 (by decide) (by decide)
  exact ⟨hbyte, (hblocks 0 1 (by decide) (by decide)).1⟩

end Soi.SystemPlikow
