import Soi.Lib.ByteFile
import Soi.SystemPlikow.Layout

/-!
# `Soi.SystemPlikow.VFS`: disks are created and opened

`createVFS` and `openAndReadVFS` are the functions of `VFS.c`. A disk is a file of bytes on a
machine with the lowest byte first. A function returns the number of its error, or what it
delivers. `openAndReadVFS` compares the length of the file with the one that it predicts from its
local variable `superblock` before it reads the superblock from the disk, so that the value of
the variable at this point is an argument, `garbage`. The calls of the C library succeed where
the file has what they ask for, and `truncate` fills with zero bytes.
-/

set_option autoImplicit false

namespace Soi.SystemPlikow

open Soi.Lib

/-- `struct VFS_superblock`. -/
structure Superblock where
  nDatablocks : UInt32
  deriving DecidableEq, Repr

/-- `struct VFS_filedescriptor`. -/
structure Filedescriptor where
  filename : Fin 24 → UInt8
  size : UInt32
  firstBlock : UInt32
  deriving DecidableEq

/-- `struct VFS_rootdir`. -/
structure Rootdir where
  files : Fin 1024 → Filedescriptor

/-- What `open_and_read_VFS` assigns to its arguments. -/
structure Opened where
  superblock : Superblock
  rootdir : Rootdir
  /-- The bitmap, when there is a pointer for it. -/
  freeSpaceMap : Option (List UInt8)
  diskFileSize : UInt32

/-- The superblock at its place. -/
def readSuperblock (f : ByteFile) : Superblock := ⟨f.wordAt superblockOffset.toNat⟩

/-- A descriptor of the directory. -/
def readFiledescriptor (f : ByteFile) (off : Nat) : Filedescriptor where
  filename i := f.byte (off + i)
  size := f.wordAt (off + 24)
  firstBlock := f.wordAt (off + 28)

/-- The directory at its place. -/
def readRootdir (f : ByteFile) : Rootdir where
  files i := readFiledescriptor f (rootdirByteOffset.toNat + sizeofFiledescriptor.toNat * i)

/-- `create_VFS`, where `fopened` is whether `fopen` could open the file. -/
def createVFS (fopened : Bool) (sizeInBytes : UInt32) : Except Nat ByteFile :=
  if !fopened then
    .error 1
  else
    let superblock : Superblock := ⟨(fileChunksNeededForBytes sizeInBytes).toUInt32⟩
    let diskFile := ByteFile.empty.writeWord superblockOffset.toNat superblock.nDatablocks
    .ok (diskFile.truncate (predictedVFSFileSize superblock.nDatablocks).toNat)

/-- `open_and_read_VFS`, where `diskFile` is what `fopen` opens, and `fuMap` is whether there is a
pointer for the bitmap. -/
def openAndReadVFS (diskFile : Option ByteFile) (garbage : UInt32) (fuMap : Bool) :
    Except Nat Opened :=
  match diskFile with
  | none => .error 1
  | some f =>
      let diskFileSize := UInt32.ofNat f.length
      if diskFileSize.toUInt64 ≠ predictedVFSFileSize garbage then
        .error 2
      else if !f.canRead superblockOffset.toNat 4 then
        .error 3
      else if !f.canRead rootdirByteOffset.toNat sizeofRootdir.toNat then
        .error 4
      else
        let superblock := readSuperblock f
        let size := (bitmapSizeActualBytes superblock.nDatablocks).toNat
        if fuMap && !f.canRead bitmapByteOffset.toNat size then
          .error 5
        else
          .ok {
            superblock
            rootdir := readRootdir f
            freeSpaceMap := if fuMap then some (f.extract bitmapByteOffset.toNat size) else none
            diskFileSize }

/-! ### The listing -/

/-- The descriptors of the directory, in the order of their numbers. -/
def Rootdir.entries (rootdir : Rootdir) : List Filedescriptor :=
  (List.finRange 1024).map rootdir.files

/-- The first byte of the name of a file is not 0. -/
def Filedescriptor.listed (fd : Filedescriptor) : Bool := fd.filename ⟨0, by decide⟩ != 0

/-- What is printed for a file, with the space in bytes. -/
structure ListedFile where
  filename : Fin 24 → UInt8
  size : UInt32
  spaceOccupied : UInt32

/-- What `list_VFS_rootdir` prints, with the space in bytes. -/
structure Listing where
  diskFileSize : UInt32
  nDatablocks : UInt32
  files : List ListedFile
  spaceOccupiedTotal : UInt32
  spaceAvailableTotal : UInt32
  spaceFree : UInt32
  /-- Without it there is the line that says that there are no files. -/
  hasFilesFlag : Bool

/-- The variables of the loop of `list_VFS_rootdir`, and the lines that it has printed. -/
structure Tally where
  files : List ListedFile
  spaceOccupiedTotal : UInt32
  hasFilesFlag : Bool

/-- The space that a file of this size takes. -/
def spaceOccupied (size : UInt32) : UInt32 :=
  (fileChunksNeededForBytes size * fileDataChunkSize).toUInt32

/-- The body of the loop of `list_VFS_rootdir`. -/
def listFile (tally : Tally) (fd : Filedescriptor) : Tally :=
  if fd.listed then
    { files := tally.files ++ [⟨fd.filename, fd.size, spaceOccupied fd.size⟩]
      spaceOccupiedTotal := tally.spaceOccupiedTotal + spaceOccupied fd.size
      hasFilesFlag := true }
  else
    tally

/-- The loop of `list_VFS_rootdir`. -/
def listFiles (entries : List Filedescriptor) : Tally := entries.foldl listFile ⟨[], 0, false⟩

/-- `list_VFS_rootdir` from its loop on. -/
def Opened.listing (d : Opened) : Listing :=
  let tally := listFiles d.rootdir.entries
  let spaceAvailableTotal := (usableDataSizeBytes d.superblock.nDatablocks).toUInt32
  { diskFileSize := d.diskFileSize
    nDatablocks := d.superblock.nDatablocks
    files := tally.files
    spaceOccupiedTotal := tally.spaceOccupiedTotal
    spaceAvailableTotal
    spaceFree := spaceAvailableTotal - tally.spaceOccupiedTotal
    hasFilesFlag := tally.hasFilesFlag }

/-- `list_VFS_rootdir`. -/
def listVFSRootdir (diskFile : Option ByteFile) (garbage : UInt32) : Except Nat Listing :=
  match openAndReadVFS diskFile garbage false with
  | .error r => .error r
  | .ok d => .ok d.listing

end Soi.SystemPlikow
