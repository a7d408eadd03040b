import Soi.Proofs.SystemPlikow.Layout
import Soi.SystemPlikow.VFS

/-!
# `Soi.Proofs.SystemPlikow.VFS`: which disks can be opened

`openAndReadVFS_ok` lists what `open_and_read_VFS` asks for: that the low 32 bits of the length are
what it predicts from the uninitialised superblock, and that the reads succeed. A disk of
`create_VFS` has its parts at their places, and they are zero (`createVFS_ok`), so that it opens
just when the uninitialised value predicts the same length as the one on the disk.

`openAndReadVFS_iff` is the result: a fresh disk opens, and an opened disk is consistent, exactly
when the uninitialised value agrees with the disk in this way.
-/

set_option autoImplicit false

namespace Soi.SystemPlikow

open Soi.Lib

/-- The length of the file is the one that its own superblock predicts. -/
def Consistent (f : ByteFile) : Prop :=
  f.length = (predictedVFSFileSize (readSuperblock f).nDatablocks).toNat

/-- The superblock, the directory and, when there is a pointer for it, a bitmap of at least one
byte are in the file. -/
def Readable (f : ByteFile) (fuMap : Bool) : Prop :=
  36864 ≤ f.length ∧ (fuMap = true →
    0 < (bitnslots (readSuperblock f).nDatablocks).toNat ∧
    36864 + (bitnslots (readSuperblock f).nDatablocks).toNat ≤ f.length)

/-- A directory without files. -/
def zeroRootdir : Rootdir := ⟨fun _ => ⟨fun _ => 0, 0, 0⟩⟩

/-- What a file that is opened delivers. -/
def opened (f : ByteFile) (fuMap : Bool) : Opened where
  superblock := readSuperblock f
  rootdir := readRootdir f
  freeSpaceMap :=
    if fuMap then
      some (f.extract 36864 (bitnslots (readSuperblock f).nDatablocks).toNat)
    else
      none
  diskFileSize := UInt32.ofNat f.length

section
variable {f : ByteFile} {garbage : UInt32} {fuMap : Bool} {d : Opened}

/-- The comparison of the length sees its low 32 bits. -/
theorem sizeCheck_iff (length : Nat) (garbage : UInt32) :
    (UInt32.ofNat length).toUInt64 = predictedVFSFileSize garbage
      ↔ length % 2 ^ 32 = (predictedVFSFileSize garbage).toNat := by
  rw [← UInt64.toNat_inj, UInt32.toNat_toUInt64, UInt32.toNat_ofNat']

/-- When `open_and_read_VFS` returns 0. -/
theorem openAndReadVFS_ok : openAndReadVFS (some f) garbage fuMap = .ok d ↔
    (f.length % 2 ^ 32 = (predictedVFSFileSize garbage).toNat ∧ Readable f fuMap) ∧
      d = opened f fuMap := by
  have hmap : (fuMap && !f.canRead 36864 (bitnslots (readSuperblock f).nDatablocks).toNat) = false
      ↔ (fuMap = true → 0 < (bitnslots (readSuperblock f).nDatablocks).toNat ∧
        36864 + (bitnslots (readSuperblock f).nDatablocks).toNat ≤ f.length) := by
    rw [← ByteFile.canRead_iff]
    cases fuMap <;> simp
  simp only [openAndReadVFS, ne_eq, sizeCheck_iff, toNat_superblockOffset,
    toNat_rootdirByteOffset, toNat_sizeofRootdir, toNat_bitmapByteOffset, bitmapSizeActualBytes]
  by_cases hsize : f.length % 2 ^ 32 = (predictedVFSFileSize garbage).toNat
  · by_cases hdir : 36864 ≤ f.length
    · -- The superblock and the directory are there, and the bitmap decides.
      have hsuper : f.canRead 0 4 = true := ByteFile.canRead_iff.mpr (by omega)
      have hroot : f.canRead 4096 32768 = true := ByteFile.canRead_iff.mpr (by omega)
      simp only [hsize, hsuper, hroot, not_true, if_false, Bool.not_true, Bool.false_eq_true,
        Readable, hdir, true_and, ← hmap]
      cases hbitmap :
          fuMap && !f.canRead 36864 (bitnslots (readSuperblock f).nDatablocks).toNat with
      | true =>
          simp only [if_true, Bool.true_eq_false, false_and, iff_false]
          exact fun h => by cases h
      | false =>
          simp only [Bool.false_eq_true, if_false, true_and]
          exact ⟨fun h => (Except.ok.inj h).symm, fun h => h ▸ rfl⟩
    · -- The directory is not in the file.
      have hroot : f.canRead 4096 32768 = false :=
        Bool.eq_false_iff.mpr fun h => hdir (by have := ByteFile.canRead_iff.mp h; omega)
      simp only [hsize, hroot, not_true, if_false, Bool.not_false, if_true, Readable, hdir,
        false_and, and_false, iff_false]
      split_ifs <;> exact fun h => by cases h
  · -- The length is not the predicted one.
    simp only [hsize, not_false_iff, if_true, false_and, iff_false]
    exact fun h => by cases h

/-- When the call succeeds: the length of the file is what the macro predicts from the uninitialised
value, and the regions can be read. -/
theorem openAndReadVFS_returns : (∃ d, openAndReadVFS (some f) garbage fuMap = .ok d) ↔
    f.length % 2 ^ 32 = (predictedVFSFileSize garbage).toNat ∧ Readable f fuMap := by
  constructor
  · rintro ⟨d, hd⟩
    exact (openAndReadVFS_ok.mp hd).1
  · intro h
    exact ⟨opened f fuMap, openAndReadVFS_ok.mpr ⟨h, rfl⟩⟩

end

/-! ### Fresh disks -/

/-- The file of `create_VFS` for `n` blocks. -/
def freshDisk (n : UInt32) : ByteFile :=
  (ByteFile.empty.writeWord 0 n).truncate (predictedVFSFileSize n).toNat

/-- When the file can be opened, the disk is that for the number of chunks of the size. -/
theorem createVFS_ok (size : UInt32) :
    createVFS true size = .ok (freshDisk (fileChunksNeededForBytes size).toUInt32) := rfl

/-- The superblock of a fresh disk is what was written to it. -/
@[simp] theorem readSuperblock_freshDisk (n : UInt32) : readSuperblock (freshDisk n) = ⟨n⟩ := by
  rw [readSuperblock, freshDisk, toNat_superblockOffset, ByteFile.wordAt_truncate,
    ByteFile.wordAt_writeWord]
  exact le_max_right _ _

/-- Only the superblock has bytes that are not zero. -/
theorem byte_freshDisk (n : UInt32) {i : Nat} (h : 4 ≤ i) : (freshDisk n).byte i = 0 :=
  ByteFile.byte_truncate_of_le h

/-- The root directory of a fresh disk has no files. -/
theorem readRootdir_freshDisk (n : UInt32) : readRootdir (freshDisk n) = zeroRootdir := by
  have hentry : ∀ off, 4 ≤ off → readFiledescriptor (freshDisk n) off = ⟨fun _ => 0, 0, 0⟩ := by
    intro off hoff
    -- The entries are behind the superblock.
    have hword : ∀ k, 4 ≤ k → (freshDisk n).wordAt k = 0 := fun k hk =>
      ByteFile.wordAt_eq_zero fun i hi => byte_freshDisk n (by omega)
    rw [readFiledescriptor, hword _ (by omega), hword _ (by omega), Filedescriptor.mk.injEq]
    exact ⟨funext fun i => byte_freshDisk n (by omega), rfl, rfl⟩
  rw [readRootdir, zeroRootdir, Rootdir.mk.injEq]
  funext i
  rw [toNat_rootdirByteOffset]
  exact hentry _ (by omega)

/-- All regions of a fresh disk can be read. -/
theorem readable_freshDisk {n : UInt32} (hpos : 1 ≤ n.toNat) (hle : n.toNat ≤ 1048534)
    (fuMap : Bool) : Readable (freshDisk n) fuMap := by
  have hlength : (freshDisk n).length = (predictedVFSFileSize n).toNat := rfl
  have hslots := toNat_bitnslots (n := n) (by omega)
  rw [Readable, readSuperblock_freshDisk, hlength, predicted_of_le hpos hle, hslots]
  omega

/-- `open_and_read_VFS` returns 0 on the file of `create_VFS` for `size` bytes. It delivers the
number of blocks, a directory without files, and a bitmap without bits. -/
def Delivers (size garbage : UInt32) : Prop :=
  ∃ f d, createVFS true size = .ok f ∧ openAndReadVFS (some f) garbage true = .ok d ∧
    d.superblock.nDatablocks.toNat = (size.toNat + 4091) / 4092 ∧ d.rootdir = zeroRootdir ∧
    d.freeSpaceMap = some (List.replicate (bitnslots d.superblock.nDatablocks).toNat 0)

/-- A disk that was created opens again just when the uninitialised value predicts the same length
as its number of blocks. -/
theorem delivers_iff {size garbage : UInt32} (hsize : size ≠ 0)
    (hle : size.toNat ≤ 4290601128) : Delivers size garbage ↔ predictedVFSFileSize garbage
      = predictedVFSFileSize (fileChunksNeededForBytes size).toUInt32 := by
  have hpos : size.toNat ≠ 0 := fun h0 => hsize (UInt32.toNat_inj.mp h0)
  have hchunks := toNat_fileChunksNeededForBytes hsize
  set n := (fileChunksNeededForBytes size).toUInt32 with hn
  have hlt := predicted_lt (n := n) (by omega) (by omega)
  have hlength : (freshDisk n).length = (predictedVFSFileSize n).toNat := rfl
  constructor
  · rintro ⟨f, d, hcreate, hopen, -⟩
    obtain rfl : freshDisk n = f := Except.ok.inj ((createVFS_ok size).symm.trans hcreate)
    -- The disk is shorter than 2^32 bytes, so the comparison sees its whole length.
    have hcheck := (openAndReadVFS_ok.mp hopen).1.1
    rw [hlength, Nat.mod_eq_of_lt hlt] at hcheck
    exact UInt64.toNat_inj.mp hcheck.symm
  · intro heq
    refine ⟨freshDisk n, opened (freshDisk n) true, createVFS_ok size,
      openAndReadVFS_ok.mpr ⟨⟨?_, readable_freshDisk (by omega) (by omega) true⟩, rfl⟩, ?_,
      readRootdir_freshDisk n, ?_⟩
    · rw [heq, hlength, Nat.mod_eq_of_lt hlt]
    · rw [opened, readSuperblock_freshDisk]
      exact hchunks
    · rw [opened, readSuperblock_freshDisk, if_pos rfl,
        ByteFile.extract_eq_zero fun i hi => byte_freshDisk n (by omega)]

/-! ### The comparison -/

/-- A fresh disk opens exactly when the uninitialised number of blocks predicts the length that
its own number does. A file that is opened is consistent exactly when, in case that the
comparison and the reads succeed, the uninitialised number predicts the same low 32 bits as the
superblock of the file, and the bits that the comparison drops are as predicted. -/
theorem openAndReadVFS_iff (garbage size : UInt32) (hsize : size ≠ 0)
    (hle : size.toNat ≤ 4290601128) (f : ByteFile) (fuMap : Bool) :
    (Delivers size garbage ↔ predictedVFSFileSize garbage
      = predictedVFSFileSize (fileChunksNeededForBytes size).toUInt32) ∧
    (((∃ d, openAndReadVFS (some f) garbage fuMap = .ok d) → Consistent f) ↔
      (f.length % 2 ^ 32 = (predictedVFSFileSize garbage).toNat → Readable f fuMap →
        (predictedVFSFileSize garbage).toNat
            = (predictedVFSFileSize (readSuperblock f).nDatablocks).toNat % 2 ^ 32 ∧
          f.length / 2 ^ 32
            = (predictedVFSFileSize (readSuperblock f).nDatablocks).toNat / 2 ^ 32)) := by
  refine ⟨delivers_iff hsize hle, ?_⟩
  rw [openAndReadVFS_returns, Consistent, and_imp]
  -- The comparison fixes the low 32 bits of the length. Consistency needs these and the rest.
  refine imp_congr_right fun hcheck => imp_congr_right ?_
  intro _
  rw [← hcheck]
  omega

/-- The disk of one byte, when the uninitialised value happens to be its number of blocks. -/
theorem openAndReadVFS_iff_tiny : Delivers 1 1 ∧
    ((∃ d, openAndReadVFS (some (freshDisk 1)) 1 true = .ok d) → Consistent (freshDisk 1)) := by
  obtain ⟨hdelivers, hconsistent⟩ := openAndReadVFS_iff 1 1 (by decide) (by decide) (freshDisk 1)
    true
  refine ⟨hdelivers.mpr (by decide), hconsistent.mpr ?_⟩
  intro _ _
  rw [readSuperblock_freshDisk]
  decide

/-- A file as long as a disk of one block, whose superblock says 9999 blocks. -/
def mismatchedDisk : ByteFile :=
  (ByteFile.empty.writeWord 0 9999).truncate (predictedVFSFileSize 1).toNat

/-- With the uninitialised value 0 the disk of one byte does not open, and with the value 1 the
mismatched file does. -/
theorem openAndReadVFS_fails :
    ¬ ((∀ size garbage : UInt32, size ≠ 0 → size.toNat ≤ 4290601128 → Delivers size garbage) ∧
      ∀ (f : ByteFile) (garbage : UInt32) (fuMap : Bool),
        (∃ d, openAndReadVFS (some f) garbage fuMap = .ok d) → Consistent f) ∧
    openAndReadVFS (some (freshDisk 1)) 0 true = .error 2 ∧
    (∃ d, openAndReadVFS (some mismatchedDisk) 1 true = .ok d) ∧ ¬ Consistent mismatchedDisk := by
  have hfresh : openAndReadVFS (some (freshDisk 1)) 0 true = .error 2 := rfl
  refine ⟨?_, hfresh, ?_, ?_⟩
  · intro hopens
    obtain ⟨f, d, hcreate, hopen, -⟩ := hopens.1 1 0 (by decide) (by decide)
    obtain rfl : freshDisk 1 = f := Except.ok.inj hcreate
    rw [hfresh] at hopen
    cases hopen
  · exact ⟨_, rfl⟩
  · unfold Consistent
    decide

end Soi.SystemPlikow
