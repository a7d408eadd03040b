import Soi.SystemPlikow.Helpers
import Soi.SystemPlikow.VFS

/-!
# `Soi.SystemPlikow.Info`: the table of a disk, and the commands

`readVFSInfo` is `read_VFS_info` of `VFS.c`. It prints the table of all the blocks of a disk: the
three regions in front of the data, and the groups of free and of occupied data blocks. It is
`none` when the list of the groups reads outside the bitmap. `createVFSMain`, `mlsMain` and
`readInfoMain` are the functions `main` of the commands. `argc` is the number of their arguments
with the name of the command, and all of them return 0.
-/

set_option autoImplicit false

namespace Soi.SystemPlikow

open Soi.Lib

/-- A line of the table. -/
inductive Row where
  | superblock (addr size : UInt32)
  | rootDirectory (addr size : UInt32)
  | spaceUsageBitmap (addr size : UInt32)
  | blocks (line : Line)
  deriving DecidableEq, Repr

/-- What `read_VFS_info` prints, with the sizes in bytes. -/
structure Info where
  diskFileSize : UInt32
  usableDiskSize : UInt64
  nDatablocks : UInt32
  rows : List Row
  deriving DecidableEq, Repr

/-- The lines of the table in front of the data blocks. -/
def headRows (nDatablocks : UInt32) : List Row :=
  [.superblock superblockOffset.toUInt32 1,
   .rootDirectory rootdirBlockOffset.toUInt32 rootdirSizeBlocks.toUInt32,
   .spaceUsageBitmap bitmapBlockOffset.toUInt32 (bitmapSizeBlocks nDatablocks)]

/-- `read_VFS_info` behind the call of `open_and_read_VFS`. -/
def Opened.info (signed : Bool) (d : Opened) : Option Info :=
  match d.freeSpaceMap with
  | none => none
  | some freeSpaceBitmap =>
      -- The offset is a `size_t`, and the argument is a `size_type`.
      match iterateBlockStructure signed (isFreeBitmapBlock signed freeSpaceBitmap)
          (dataBlockOffset d.superblock.nDatablocks).toUInt32 "data" d.superblock.nDatablocks with
      | none => none
      | some (_, lines) =>
          some {
            diskFileSize := d.diskFileSize
            usableDiskSize := usableDataSizeBytes d.superblock.nDatablocks
            nDatablocks := d.superblock.nDatablocks
            rows := headRows d.superblock.nDatablocks ++ lines.map .blocks }

/-- `read_VFS_info`. -/
def readVFSInfo (signed : Bool) (diskFile : Option ByteFile) (garbage : UInt32) :
    Option (Except Nat Info) :=
  match openAndReadVFS diskFile garbage true with
  | .error r => some (.error r)
  | .ok d => (d.info signed).map .ok

/-! ### The commands -/

/-- What a command prints. -/
inductive Message (α : Type) where
  | argumentError
  /-- `Successfully created VFS in file`. -/
  | created
  /-- `Error occured`, with the code. -/
  | error (code : Nat)
  /-- The listing or the table. -/
  | report (a : α)

/-- `main` of `createVFS.c`, where `size` is what `atoi` returns, with the file that it leaves. -/
def createVFSMain (argc : Nat) (fopened : Bool) (size : Int32) : Message Unit × Option ByteFile :=
  if argc ≠ 3 then
    (.argumentError, none)
  else
    match createVFS fopened size.toUInt32 with
    | .ok diskFile => (.created, some diskFile)
    | .error ret => (.error ret, none)

/-- `main` of `mls.c`. -/
def mlsMain (argc : Nat) (diskFile : Option ByteFile) (garbage : UInt32) : Message Listing :=
  if argc ≠ 2 then
    .argumentError
  else
    match listVFSRootdir diskFile garbage with
    | .ok listing => .report listing
    | .error ret => .error ret

/-- `main` of `readInfo.c`. -/
def readInfoMain (argc : Nat) (signed : Bool) (diskFile : Option ByteFile) (garbage : UInt32) :
    Option (Message Info) :=
  if argc ≠ 2 then
    some .argumentError
  else
    match readVFSInfo signed diskFile garbage with
    | none => none
    | some (.ok info) => some (.report info)
    | some (.error ret) => some (.error ret)

end Soi.SystemPlikow
