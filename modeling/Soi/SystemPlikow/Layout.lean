import Mathlib.Data.UInt

/-!
# `Soi.SystemPlikow.Layout`: the layout macros of `VFS.c`, `VFS.h` and `types.h`

A disk has a superblock, a directory, a bitmap and data blocks. The macros compute where these
are, in the types that C gives to their parts: `size_type` has 32 bits, `sizeof` and all that is
computed with it has 64, and an `int` constant takes the type of the other operand.
-/

set_option autoImplicit false

namespace Soi.SystemPlikow

/-- `BLOCK_SIZE`. -/
def blockSize : UInt32 := 4096

/-- `sizeof(block_index_type)` and `sizeof(size_type)`. -/
def sizeofIndex : UInt64 := 4

/-- `FILENAME_LENGTH`. -/
def filenameLength : UInt64 := 31 - sizeofIndex - sizeofIndex

/-- `FILE_DATA_CHUNK_SIZE`. -/
def fileDataChunkSize : UInt64 := blockSize.toUInt64 - sizeofIndex

/-- `sizeof(struct VFS_filedescriptor)`: the name, the size and the first block. -/
def sizeofFiledescriptor : UInt64 := filenameLength + 1 + sizeofIndex + sizeofIndex

/-- `MAX_FILECOUNT`. -/
def maxFilecount : UInt64 := 8 * blockSize.toUInt64 / sizeofFiledescriptor

/-- `sizeof(struct VFS_rootdir)`. -/
def sizeofRootdir : UInt64 := maxFilecount * sizeofFiledescriptor

/-- `BITNSLOTS`. -/
def bitnslots (nb : UInt32) : UInt32 := (nb + 8 - 1) / 8

/-- `BLOCKS_NEEDED_FOR_BYTES`, for a number of bytes of 32 bits. -/
def blocksNeededForBytes (nb : UInt32) : UInt32 := (nb - 1) / blockSize + 1

/-- `BLOCKS_NEEDED_FOR_BYTES`, for a `sizeof`. -/
def blocksNeededForSizeof (nb : UInt64) : UInt64 := (nb - 1) / blockSize.toUInt64 + 1

/-- `FILE_CHUNKS_NEEDED_FOR_BYTES`. -/
def fileChunksNeededForBytes (nb : UInt32) : UInt64 := (nb - 1).toUInt64 / fileDataChunkSize + 1

/-- `SUPERBLOCK_OFFSET`. -/
def superblockOffset : UInt64 := 0

/-- `ROOTDIR_BLOCK_OFFSET`. -/
def rootdirBlockOffset : UInt64 := 1

/-- `ROOTDIR_BYTE_OFFSET`. -/
def rootdirByteOffset : UInt64 := 1 * blockSize.toUInt64

/-- `ROOTDIR_SIZE_BLOCKS`. -/
def rootdirSizeBlocks : UInt64 := blocksNeededForSizeof sizeofRootdir

/-- `BITMAP_BYTE_OFFSET`. -/
def bitmapByteOffset : UInt64 := rootdirByteOffset + sizeofRootdir

/-- `BITMAP_BLOCK_OFFSET`. -/
def bitmapBlockOffset : UInt64 := rootdirBlockOffset + rootdirSizeBlocks

/-- `BITMAP_SIZE_ACTUAL_BYTES`. -/
def bitmapSizeActualBytes (ndblocks : UInt32) : UInt32 := bitnslots ndblocks

/-- `BITMAP_SIZE_BLOCKS`. -/
def bitmapSizeBlocks (ndblocks : UInt32) : UInt32 :=
  blocksNeededForBytes (bitmapSizeActualBytes ndblocks)

/-- `BITMAP_SIZE_DISK_BYTES`. -/
def bitmapSizeDiskBytes (ndblocks : UInt32) : UInt32 := bitmapSizeBlocks ndblocks * blockSize

/-- `DATA_BYTE_OFFSET`. -/
def dataByteOffset (ndblocks : UInt32) : UInt64 :=
  bitmapByteOffset + (bitmapSizeDiskBytes ndblocks).toUInt64

/-- `DATA_BLOCK_OFFSET`. -/
def dataBlockOffset (ndblocks : UInt32) : UInt64 :=
  bitmapBlockOffset + (bitmapSizeBlocks ndblocks).toUInt64

/-- `USABLE_DATA_SIZE_BYTES`. -/
def usableDataSizeBytes (ndblocks : UInt32) : UInt64 := ndblocks.toUInt64 * fileDataChunkSize

/-- `DATA_SIZE_DISK_BYTES`. -/
def dataSizeDiskBytes (ndblocks : UInt32) : UInt32 := ndblocks * blockSize

/-- `DATA_ITH_BLOCK_OFFSET`, for a block number of 32 bits. -/
def dataIthBlockOffset (blockNr ndblocks : UInt32) : UInt64 :=
  dataByteOffset ndblocks + (blockNr * blockSize).toUInt64

/-- `PREDICTED_VFS_FILE_SIZE`. -/
def predictedVFSFileSize (ndblocks : UInt32) : UInt64 :=
  dataByteOffset ndblocks + (dataSizeDiskBytes ndblocks).toUInt64

end Soi.SystemPlikow
