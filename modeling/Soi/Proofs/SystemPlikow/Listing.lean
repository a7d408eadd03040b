import Mathlib.Algebra.Order.BigOperators.Group.List
import Mathlib.Algebra.Order.Floor.Div
import Mathlib.GroupTheory.GroupAction.Ring
import Soi.Proofs.SystemPlikow.VFS

/-!
# `Soi.Proofs.SystemPlikow.Listing`: the space that a listing reports

A file takes whole blocks. `spaceOccupied` computes their bytes with wrapping words, and it is right
for every size from 1 up to that of the largest disk (`toNat_spaceOccupied`). For the size 0 it is
4088. The files of a disk have room on it, so that no sum is larger than the disk, and the loop adds
without wrapping (`toNat_listFiles`).
-/

set_option autoImplicit false

namespace Soi.SystemPlikow

open Soi.Lib

/-- The blocks of a file. A descriptor without a name has none. -/
def Filedescriptor.chunks (fd : Filedescriptor) : Nat :=
  if fd.listed then fd.size.toNat ⌈/⌉ 4092 else 0

/-- The blocks of all the files. -/
def chunks (entries : List Filedescriptor) : Nat := (entries.map Filedescriptor.chunks).sum

/-- The space in a listing is exact. -/
structure Accounted (d : Opened) (l : Listing) : Prop where
  /-- Each file takes whole blocks. Neither the subtraction nor the product wraps, and the product
  is a `size_type`. -/
  file : ∀ file ∈ l.files, file.spaceOccupied.toNat = file.size.toNat ⌈/⌉ 4092 * 4092 ∧
    ((file.size - 1).toNat : Int) = file.size.toNat - 1 ∧
    (fileChunksNeededForBytes file.size).toNat * fileDataChunkSize.toNat < 2 ^ 32
  /-- The sum is exact after each entry of the directory. -/
  sum : ∀ pre, pre <+: d.rootdir.entries →
    (listFiles pre).spaceOccupiedTotal.toNat = chunks pre * 4092
  total : l.spaceOccupiedTotal.toNat = chunks d.rootdir.entries * 4092
  available : l.spaceAvailableTotal.toNat = d.superblock.nDatablocks.toNat * 4092
  free : l.spaceFree.toNat + l.spaceOccupiedTotal.toNat = l.spaceAvailableTotal.toNat

section
variable {size n : UInt32}

/-- The bytes of the blocks, before they become a `size_type`. -/
theorem toNat_product (hpos : 1 ≤ size.toNat) :
    (fileChunksNeededForBytes size * fileDataChunkSize).toNat = size.toNat ⌈/⌉ 4092 * 4092 := by
  have hlt := size.toNat_lt
  have hchunk : fileDataChunkSize.toNat = 4092 := by decide
  have hceil : size.toNat ⌈/⌉ 4092 = (size.toNat + 4091) / 4092 := rfl
  rw [UInt64.toNat_mul, toNat_fileChunks hpos, hchunk, hceil]
  omega

/-- The space of a file, when it is a `size_type`. -/
theorem toNat_spaceOccupied (hpos : 1 ≤ size.toNat) (hlt : size.toNat ⌈/⌉ 4092 * 4092 < 2 ^ 32) :
    (spaceOccupied size).toNat = size.toNat ⌈/⌉ 4092 * 4092 := by
  rw [spaceOccupied, UInt64.toNat_toUInt32, toNat_product hpos]
  omega

/-- A file that has room on a disk and is not empty. -/
theorem spaceOccupied_exact (hne : size ≠ 0) (hroom : size.toNat ⌈/⌉ 4092 ≤ 1048534) :
    (spaceOccupied size).toNat = size.toNat ⌈/⌉ 4092 * 4092 ∧
      ((size - 1).toNat : Int) = size.toNat - 1 ∧
      (fileChunksNeededForBytes size).toNat * fileDataChunkSize.toNat < 2 ^ 32 := by
  have hpos : size.toNat ≠ 0 := fun h0 => hne (UInt32.toNat_inj.mp h0)
  have hceil : size.toNat ⌈/⌉ 4092 = (size.toNat + 4091) / 4092 := rfl
  refine ⟨toNat_spaceOccupied (by omega) (by omega), ?_, ?_⟩
  · rw [toNat_pred (by omega)]
    omega
  · show (fileChunksNeededForBytes size).toNat * 4092 < 2 ^ 32
    rw [toNat_fileChunks (by omega), ← hceil]
    omega

/-- The macro for the space of an empty file wraps around. -/
theorem spaceOccupied_zero : spaceOccupied 0 = 4088 := by decide

/-- Each data block has 4092 bytes for data. -/
theorem toNat_usableDataSizeBytes (hle : n.toNat ≤ 1048534) :
    (usableDataSizeBytes n).toUInt32.toNat = n.toNat * 4092 := by
  have hchunk : fileDataChunkSize.toNat = 4092 := by decide
  rw [UInt64.toNat_toUInt32, usableDataSizeBytes, UInt64.toNat_mul, UInt32.toNat_toUInt64, hchunk]
  omega

end

/-! ### The loop -/

section
variable {pre : List Filedescriptor} {fd : Filedescriptor}

/-- A descriptor at the end is the last one that is listed. -/
theorem listFiles_concat (pre : List Filedescriptor) (fd : Filedescriptor) :
    listFiles (pre ++ [fd]) = listFile (listFiles pre) fd := List.foldl_concat _ _ _ _

/-- The chunks of two parts of the directory add up. -/
theorem chunks_append (pre post : List Filedescriptor) :
    chunks (pre ++ post) = chunks pre + chunks post := by
  rw [chunks, List.map_append, List.sum_append]
  rfl

/-- A descriptor at the end adds its chunks. -/
theorem chunks_concat (pre : List Filedescriptor) (fd : Filedescriptor) :
    chunks (pre ++ [fd]) = chunks pre + fd.chunks := by
  rw [chunks_append]
  rfl

/-- A file takes no more than all the files. -/
theorem le_chunks {entries : List Filedescriptor} (hmem : fd ∈ entries) :
    fd.chunks ≤ chunks entries :=
  List.le_sum_of_mem (List.mem_map_of_mem hmem)

/-- The loop prints the files in the order of the directory. -/
theorem files_listFiles (entries : List Filedescriptor) :
    (listFiles entries).files = (entries.filter Filedescriptor.listed).map fun fd =>
      ⟨fd.filename, fd.size, spaceOccupied fd.size⟩ := by
  induction entries using List.reverseRecOn with
  | nil => rfl
  | append_singleton pre fd ih =>
      rw [listFiles_concat, listFile, List.filter_append, List.map_append, ← ih]
      cases hlisted : fd.listed with
      | true => simp [hlisted]
      | false => simp [hlisted]

/-- What one entry adds to the sum, when there is room for it. -/
theorem toNat_listFile {tally : Tally} (hsize : fd.listed = true → fd.size ≠ 0)
    (hroom : tally.spaceOccupiedTotal.toNat + fd.chunks * 4092 < 2 ^ 32) :
    (listFile tally fd).spaceOccupiedTotal.toNat
      = tally.spaceOccupiedTotal.toNat + fd.chunks * 4092 := by
  rw [listFile]
  cases hlisted : fd.listed with
  | false =>
      rw [Filedescriptor.chunks, hlisted]
      simp
  | true =>
      have hpos : fd.size.toNat ≠ 0 := fun h0 => hsize hlisted (UInt32.toNat_inj.mp h0)
      have hchunks : fd.chunks = fd.size.toNat ⌈/⌉ 4092 := by
        rw [Filedescriptor.chunks, if_pos hlisted]
      rw [hchunks] at hroom ⊢
      rw [if_pos rfl]
      show (tally.spaceOccupiedTotal + spaceOccupied fd.size).toNat = _
      rw [UInt32.toNat_add, toNat_spaceOccupied (by omega) (by omega)]
      omega

/-- The sum after some entries, when all of them have room on a disk. -/
theorem toNat_listFiles (hsize : ∀ fd ∈ pre, fd.listed = true → fd.size ≠ 0)
    (hcap : chunks pre ≤ 1048534) :
    (listFiles pre).spaceOccupiedTotal.toNat = chunks pre * 4092 := by
  induction pre using List.reverseRecOn with
  | nil => rfl
  | append_singleton pre fd ih =>
      rw [chunks_concat] at hcap ⊢
      have hpre := ih (fun fd hfd => hsize fd (List.mem_append_left _ hfd)) (by omega)
      rw [listFiles_concat, toNat_listFile (hsize fd (by simp)) (by omega), hpre]
      omega

end

/-! ### The listing -/

/-- When the disk opens, the listing is that of what was read. -/
theorem listVFSRootdir_ok {diskFile : Option ByteFile} {garbage : UInt32} {d : Opened}
    (hopen : openAndReadVFS diskFile garbage false = .ok d) :
    listVFSRootdir diskFile garbage = .ok d.listing := by
  rw [listVFSRootdir, hopen]

/-- The listed files are those of the loop. -/
theorem files_listing (d : Opened) :
    d.listing.files = (d.rootdir.entries.filter Filedescriptor.listed).map fun fd =>
      ⟨fd.filename, fd.size, spaceOccupied fd.size⟩ := by
  simp only [Opened.listing, files_listFiles]

/-- A listed file of the size 0 is printed with 4088 bytes. -/
theorem Accounted.size_ne_zero {d : Opened} (h : Accounted d d.listing) {fd : Filedescriptor}
    (hfd : fd ∈ d.rootdir.entries) (hlisted : fd.listed = true) : fd.size ≠ 0 := by
  intro hzero
  have hprinted : (⟨fd.filename, fd.size, spaceOccupied fd.size⟩ : ListedFile)
      ∈ d.listing.files := by
    rw [files_listing]
    exact List.mem_map_of_mem (List.mem_filter.mpr ⟨hfd, hlisted⟩)
  have hspace : (spaceOccupied fd.size).toNat = fd.size.toNat ⌈/⌉ 4092 * 4092 :=
    (h.file _ hprinted).1
  rw [hzero, spaceOccupied_zero] at hspace
  exact absurd hspace (by decide)

/-- Without such a file everything is exact. -/
theorem accounted_listing {d : Opened} (hle : d.superblock.nDatablocks.toNat ≤ 1048534)
    (hcap : chunks d.rootdir.entries ≤ d.superblock.nDatablocks.toNat)
    (hsize : ∀ fd ∈ d.rootdir.entries, fd.listed = true → fd.size ≠ 0) :
    Accounted d d.listing := by
  have htotal : d.listing.spaceOccupiedTotal.toNat = chunks d.rootdir.entries * 4092 := by
    simp only [Opened.listing, toNat_listFiles hsize (hcap.trans hle)]
  have havailable : d.listing.spaceAvailableTotal.toNat = d.superblock.nDatablocks.toNat * 4092 :=
    toNat_usableDataSizeBytes hle
  refine ⟨?_, ?_, htotal, havailable, ?_⟩
  · rw [files_listing]
    intro file hfile
    obtain ⟨fd, hfd, rfl⟩ := List.mem_map.mp hfile
    obtain ⟨hmem, hlisted⟩ := List.mem_filter.mp hfd
    have hroom := le_chunks hmem
    rw [Filedescriptor.chunks, if_pos hlisted] at hroom
    exact spaceOccupied_exact (hsize fd hmem hlisted) (hroom.trans (hcap.trans hle))
  · rintro pre ⟨post, hsplit⟩
    have hroom : chunks pre + chunks post = chunks d.rootdir.entries := by
      rw [← chunks_append, hsplit]
    refine toNat_listFiles ?_ (by omega)
    intro fd hfd
    exact hsize fd (hsplit ▸ List.mem_append_left _ hfd)
  · have hsub : d.listing.spaceOccupiedTotal ≤ d.listing.spaceAvailableTotal := by
      rw [UInt32.le_iff_toNat_le]
      omega
    have hfree : d.listing.spaceFree
        = d.listing.spaceAvailableTotal - d.listing.spaceOccupiedTotal := by
      simp only [Opened.listing]
    rw [hfree, UInt32.toNat_sub_of_le _ _ hsub]
    omega

/-- On a disk of at most 1048534 blocks, on which all the files have room, the listing names the
files, and its space is exact just when no file has the size 0. -/
theorem listVFSRootdir_accounted_iff (diskFile : Option ByteFile) (garbage : UInt32) (d : Opened)
    (hopen : openAndReadVFS diskFile garbage false = .ok d)
    (hle : d.superblock.nDatablocks.toNat ≤ 1048534)
    (hcap : chunks d.rootdir.entries ≤ d.superblock.nDatablocks.toNat) :
    ∃ l, listVFSRootdir diskFile garbage = .ok l ∧
      l.files.map (fun file => (file.filename, file.size))
        = (d.rootdir.entries.filter Filedescriptor.listed).map (fun fd => (fd.filename, fd.size)) ∧
      (Accounted d l ↔ ∀ fd ∈ d.rootdir.entries, fd.listed = true → fd.size ≠ 0) := by
  refine ⟨d.listing, listVFSRootdir_ok hopen, ?_, ?_⟩
  · rw [files_listing, List.map_map]
    rfl
  · constructor
    · intro haccounted fd hfd hlisted
      exact haccounted.size_ne_zero hfd hlisted
    · intro hsize
      exact accounted_listing hle hcap hsize

/-! ### A disk with one file -/

/-- A disk of one block, with a file of the name "a" and a size below 256 in its directory. -/
def oneFileDisk (size : UInt8) : ByteFile :=
  { freshDisk 1 with
      byte := Function.update (Function.update (freshDisk 1).byte 4096 97) 4120 size }

/-- The disk with one file opens, when the uninitialised value is 1. -/
theorem openAndReadVFS_oneFileDisk (size : UInt8) :
    openAndReadVFS (some (oneFileDisk size)) 1 false = .ok (opened (oneFileDisk size) false) := by
  have hlength : (oneFileDisk size).length = 45056 := by
    show (predictedVFSFileSize 1).toNat = 45056
    decide
  refine openAndReadVFS_ok.mpr ⟨⟨?_, ?_, ?_⟩, rfl⟩
  · rw [hlength]
    decide
  · rw [hlength]
    decide
  · intro hmap
    cases hmap

/-- A file of one byte takes one chunk, and the listing accounts for it. -/
theorem listVFSRootdir_accounted_iff_tiny :
    ∃ l, listVFSRootdir (some (oneFileDisk 1)) 1 = .ok l ∧
      Accounted (opened (oneFileDisk 1) false) l := by
  obtain ⟨l, hlist, -, haccounted⟩ := listVFSRootdir_accounted_iff (some (oneFileDisk 1)) 1
    (opened (oneFileDisk 1) false) (openAndReadVFS_oneFileDisk 1) (by decide) (by decide +kernel)
  exact ⟨l, hlist, haccounted.mpr (by decide +kernel)⟩

/-- The file of the size 0 takes no block, and it is printed with 4088 bytes. -/
theorem listVFSRootdir_not_accounted :
    (¬ ∀ (diskFile : Option ByteFile) (garbage : UInt32) (d : Opened),
      openAndReadVFS diskFile garbage false = .ok d → 1 ≤ d.superblock.nDatablocks.toNat →
      d.superblock.nDatablocks.toNat ≤ 1048534 →
      chunks d.rootdir.entries ≤ d.superblock.nDatablocks.toNat →
      ∃ l, listVFSRootdir diskFile garbage = .ok l ∧ Accounted d l) ∧
    ∃ l, listVFSRootdir (some (oneFileDisk 0)) 1 = .ok l ∧ l.spaceOccupiedTotal = 4088 ∧
      chunks (opened (oneFileDisk 0) false).rootdir.entries = 0 := by
  have hlist := listVFSRootdir_ok (openAndReadVFS_oneFileDisk 0)
  have htotal : (opened (oneFileDisk 0) false).listing.spaceOccupiedTotal = 4088 := by
    decide +kernel
  have hchunks : chunks (opened (oneFileDisk 0) false).rootdir.entries = 0 := by decide +kernel
  refine ⟨?_, _, hlist, htotal, hchunks⟩
  intro haccounts
  obtain ⟨l, hl, haccounted⟩ := haccounts _ _ _ (openAndReadVFS_oneFileDisk 0) (by decide)
    (by decide) (by rw [hchunks]; exact Nat.zero_le _)
  obtain rfl := Except.ok.inj (hlist.symm.trans hl)
  have hexact := haccounted.total
  rw [htotal, hchunks] at hexact
  exact absurd hexact (by decide)

end Soi.SystemPlikow
