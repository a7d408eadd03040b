import Soi.Proofs.SystemPlikow.Info
import Soi.Proofs.SystemPlikow.Listing

/-!
# `Soi.Proofs.SystemPlikow.Commands`: a disk is created and looked at

A disk of `create_VFS` is empty for the functions that read a disk. Its directory has no names, and
its bitmap has no bits, so that the encoding of the data blocks is one run (`info_freshDisk`).
`commands_freshDisk` is the round trip of the commands: `createVFS`, and then `mls` and `readInfo`.
-/

set_option autoImplicit false

namespace Soi.SystemPlikow

open Soi.Lib

/-- The listing of a disk without files. -/
def freshListing (n : UInt32) : Listing where
  diskFileSize := (predictedVFSFileSize n).toUInt32
  nDatablocks := n
  files := []
  spaceOccupiedTotal := 0
  spaceAvailableTotal := n * 4092
  spaceFree := n * 4092
  hasFilesFlag := false

/-- The table of a disk on which all the data blocks are free. -/
def freshInfo (n : UInt32) : Info where
  diskFileSize := (predictedVFSFileSize n).toUInt32
  usableDiskSize := n.toUInt64 * 4092
  nDatablocks := n
  rows :=
    [.superblock 0 1, .rootDirectory 1 8, .spaceUsageBitmap 9 (bitmapSizeBlocks n),
     .blocks ⟨9 + bitmapSizeBlocks n, n, true, "data"⟩]

section
variable {n : UInt32}

/-- All the bits of the map of a new disk are 0. -/
theorem usedBit_freshDisk (n : UInt32) (i : Nat) : usedBit (freshDisk n) i = false := by
  rw [usedBit, toNat_bitmapByteOffset, byte_freshDisk n (by omega)]
  exact Nat.zero_testBit _

/-- One group of free blocks is the whole list. -/
theorem Listed.eq_singleton {addr : UInt32} {lines : List Line} (hpos : 1 ≤ n.toNat)
    (h : Listed addr.toNat n.toNat (fun _ => true) lines)
    (htype : ∀ line ∈ lines, line.type = "data") : lines = [⟨addr, n, true, "data"⟩] := by
  have hencodes := h.encodes
  rw [List.map_const', List.length_range] at hencodes
  -- There is only one list of groups for these labels, and the one group is such a list.
  have hruns := hencodes.unique (encodes_replicate true hpos)
  cases lines with
  | nil => cases hruns
  | cons line rest =>
      rw [List.map_cons] at hruns
      obtain ⟨hrun, hrest⟩ := List.cons.inj hruns
      obtain ⟨hfree, hsize⟩ := Prod.mk.inj hrun
      have haddr : line.addr.toNat = addr.toNat := h.tiles.1
      obtain rfl := List.map_eq_nil_iff.mp hrest
      have hword := htype line List.mem_cons_self
      rw [List.cons.injEq, Line.mk.injEq]
      exact ⟨⟨UInt32.toNat_inj.mp haddr, UInt32.toNat_inj.mp hsize, hfree, hword⟩, rfl⟩

/-- The table of a new disk. -/
theorem info_freshDisk (signed : Bool) (hpos : 1 ≤ n.toNat) (hle : n.toNat ≤ 1048534) :
    (opened (freshDisk n) true).info signed = some (freshInfo n) := by
  have hsuper : (readSuperblock (freshDisk n)).nDatablocks = n := by rw [readSuperblock_freshDisk]
  obtain ⟨lines, hinfo, hlisted, htype⟩ :=
    info_opened (f := freshDisk n) signed (by rw [hsuper]; exact hpos) (by rw [hsuper]; omega)
  -- All the labels are the same, as all the bits are 0.
  have hbits : (fun i => !usedBit (freshDisk n) i) = fun _ => true := by
    funext i
    rw [usedBit_freshDisk]
    rfl
  have haddr : (9 + bitmapSizeBlocks n).toNat = 9 + mapBlocks n.toNat := by
    rw [UInt32.toNat_add, toNat_bitmapSizeBlocks_of_le hpos (by omega), mapBlocks]
    show (9 + _) % 2 ^ 32 = _
    omega
  rw [hsuper, hbits, ← haddr] at hlisted
  have hlines := hlisted.eq_singleton hpos htype
  have hlength : UInt32.ofNat (freshDisk n).length = (predictedVFSFileSize n).toUInt32 := rfl
  rw [hinfo, hsuper, hlines, hlength]
  rfl

/-- Without a name in the directory the loop prints nothing. -/
theorem listFiles_of_none {entries : List Filedescriptor}
    (h : ∀ fd ∈ entries, fd.listed = false) : listFiles entries = ⟨[], 0, false⟩ := by
  induction entries using List.reverseRecOn with
  | nil => rfl
  | append_singleton pre fd ih =>
      rw [listFiles_concat, ih fun fd hfd => h fd (List.mem_append_left _ hfd), listFile,
        h fd (by simp)]
      rfl

/-- The listing of a new disk. -/
theorem listing_freshDisk (n : UInt32) :
    (opened (freshDisk n) false).listing = freshListing n := by
  have htally : listFiles (opened (freshDisk n) false).rootdir.entries = ⟨[], 0, false⟩ := by
    refine listFiles_of_none ?_
    intro fd hfd
    obtain ⟨i, -, rfl⟩ := List.mem_map.mp hfd
    show ((readRootdir (freshDisk n)).files i).listed = false
    rw [readRootdir_freshDisk]
    rfl
  have hsuper : (opened (freshDisk n) false).superblock.nDatablocks = n := by
    show (readSuperblock (freshDisk n)).nDatablocks = n
    rw [readSuperblock_freshDisk]
  have husable : (usableDataSizeBytes n).toUInt32 = n * 4092 := by
    rw [usableDataSizeBytes, UInt64.toUInt32_mul, UInt32.toUInt32_toUInt64]
    rfl
  have hlength : (opened (freshDisk n) false).diskFileSize
      = (predictedVFSFileSize n).toUInt32 := rfl
  rw [Opened.listing, htally, hsuper, husable, hlength]
  show Listing.mk _ _ _ _ _ (n * 4092 - 0) _ = _
  rw [UInt32.sub_zero]
  rfl

/-- A new disk is opened when the uninitialised value predicts its length. -/
theorem openAndReadVFS_freshDisk (hpos : 1 ≤ n.toNat) (hle : n.toNat ≤ 1048534)
    (garbage : UInt32) (fuMap : Bool) : openAndReadVFS (some (freshDisk n)) garbage fuMap
      = if predictedVFSFileSize garbage = predictedVFSFileSize n then
          .ok (opened (freshDisk n) fuMap)
        else
          .error 2 := by
  have hlt := predicted_lt hpos hle
  -- The length of the disk fits into the variable that it is read to.
  have hcheck : (UInt32.ofNat (freshDisk n).length).toUInt64 = predictedVFSFileSize garbage
      ↔ predictedVFSFileSize garbage = predictedVFSFileSize n := by
    have hlength : (freshDisk n).length = (predictedVFSFileSize n).toNat := rfl
    rw [sizeCheck_iff, hlength, Nat.mod_eq_of_lt hlt, UInt64.toNat_inj, eq_comm]
  by_cases heq : predictedVFSFileSize garbage = predictedVFSFileSize n
  · rw [if_pos heq]
    refine openAndReadVFS_ok.mpr ⟨⟨?_, readable_freshDisk hpos hle fuMap⟩, rfl⟩
    exact (sizeCheck_iff _ _).mp (hcheck.mpr heq)
  · rw [if_neg heq, openAndReadVFS]
    simp only
    rw [if_pos (hcheck.not.mpr heq)]

end

/-- A disk is created with a size, and looked at. There are as many blocks as the size needs, and
both commands see a disk without files, on which all the blocks are free. They fail when the
uninitialised value does not predict the length of the disk. -/
theorem commands_freshDisk (signed : Bool) (size : Int32) (garbage : UInt32) (hsize : size ≠ 0)
    (hle : size.toUInt32.toNat ≤ 4290601128) :
    ∃ f n, createVFSMain 3 true size = (.created, some f) ∧
      n.toNat = (size.toUInt32.toNat + 4091) / 4092 ∧
      mlsMain 2 (some f) garbage
        = (if predictedVFSFileSize garbage = predictedVFSFileSize n then
            .report (freshListing n)
          else
            .error 2) ∧
      readInfoMain 2 signed (some f) garbage
        = some (if predictedVFSFileSize garbage = predictedVFSFileSize n then
            .report (freshInfo n)
          else
            .error 2) := by
  have hword : size.toUInt32 ≠ 0 := by
    intro hzero
    exact hsize (congrArg Int32.ofUInt32 hzero)
  have hne : size.toUInt32.toNat ≠ 0 := fun h0 => hword (UInt32.toNat_inj.mp h0)
  have hchunks := toNat_fileChunksNeededForBytes hword
  set n := (fileChunksNeededForBytes size.toUInt32).toUInt32 with hn
  have hpos : 1 ≤ n.toNat := by omega
  have hmax : n.toNat ≤ 1048534 := by omega
  -- Each command opens the disk in its own way, but with the same check of the length.
  refine ⟨freshDisk n, n, ?_, hchunks, ?_, ?_⟩
  · rw [createVFSMain, createVFS_ok]
    rfl
  · rw [mlsMain, listVFSRootdir, openAndReadVFS_freshDisk hpos hmax]
    by_cases heq : predictedVFSFileSize garbage = predictedVFSFileSize n
    · simp only [if_pos heq, listing_freshDisk]
      rfl
    · simp only [if_neg heq]
      rfl
  · rw [readInfoMain, readVFSInfo, openAndReadVFS_freshDisk hpos hmax]
    by_cases heq : predictedVFSFileSize garbage = predictedVFSFileSize n
    · simp only [if_pos heq, info_freshDisk signed hpos hmax]
      rfl
    · simp only [if_neg heq]
      rfl

/-- A disk for 5000 bytes has two blocks, and `mls` lists no file. -/
theorem commands_freshDisk_tiny :
    ∃ f n, createVFSMain 3 true 5000 = (.created, some f) ∧ n.toNat = 2 ∧
      mlsMain 2 (some f) 2 = .report (freshListing n) := by
  obtain ⟨f, n, hcreate, hn, hlist, -⟩ :=
    commands_freshDisk true 5000 2 (by decide) (by decide)
  have htwo : n.toNat = 2 := hn
  obtain rfl : n = 2 := UInt32.toNat_inj.mp htwo
  exact ⟨f, 2, hcreate, htwo, hlist.trans (if_pos rfl)⟩

end Soi.SystemPlikow
