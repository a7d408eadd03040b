import Soi.Proofs.SystemPlikow.Geometry
import Soi.Proofs.SystemPlikow.Helpers
import Soi.Proofs.SystemPlikow.Regions
import Soi.SystemPlikow.Info

/-!
# `Soi.Proofs.SystemPlikow.Info`: the table of a disk

`read_VFS_info` takes the number of blocks from the superblock of a file, which can be any file of
the right length. Up to 2^31 blocks the list of the groups stays in the bitmap, and from the next
number on the index of a block is a negative `int` (`readVFSInfo_eq_none_iff`). When there is a
table, its rows are in a row and name each block of the disk once, and the label of a data block
is its bit in the file (`readVFSInfo_table`).
-/

set_option autoImplicit false

namespace Soi.SystemPlikow

open Soi.Lib

/-! ### The map of a file -/

/-- The bit of a block in the bitmap of a file. -/
def usedBit (f : ByteFile) (i : Nat) : Bool :=
  (f.byte (bitmapByteOffset.toNat + i / 8)).toNat.testBit (i % 8)

/-- The bits of the map that was read are those of the file. -/
theorem bitAt_extract (f : ByteFile) {size i : Nat} (hi : i / 8 < size) :
    bitAt (f.extract 36864 size) i = usedBit f i := by
  have hget : (f.extract 36864 size)[i / 8]? = some (f.byte (36864 + i / 8)) := by
    rw [ByteFile.extract, List.getElem?_map, List.getElem?_range hi, Option.map_some]
  rw [bitAt, usedBit, List.getD_eq_getElem?_getD, hget, toNat_bitmapByteOffset, Option.getD_some]

section
variable {n : UInt32}

/-- The sizes of the map do not wrap, as far as a block number is not a negative `int`. -/
theorem toNat_bitnslots_of_le (hle : n.toNat ≤ 2 ^ 31) :
    (bitnslots n).toNat = (n.toNat + 7) / 8 := by
  have hadd : (n + 8).toNat = n.toNat + 8 := by
    rw [UInt32.toNat_add]
    show (n.toNat + 8) % 2 ^ 32 = _
    omega
  rw [bitnslots, UInt32.toNat_div, toNat_pred (by omega), hadd]
  rfl

/-- The blocks of the map. -/
def mapBlocks (n : Nat) : Nat := ((n + 7) / 8 - 1) / 4096 + 1

/-- Up to 2^31 blocks the macro for the size of the bitmap does not wrap. -/
theorem toNat_bitmapSizeBlocks_of_le (hpos : 1 ≤ n.toNat) (hle : n.toNat ≤ 2 ^ 31) :
    (bitmapSizeBlocks n).toNat = mapBlocks n.toNat := by
  have hslots := toNat_bitnslots_of_le hle
  have hblock : blockSize.toNat = 4096 := rfl
  rw [bitmapSizeBlocks, blocksNeededForBytes, bitmapSizeActualBytes, UInt32.toNat_add,
    UInt32.toNat_div, toNat_pred (by omega), hslots, hblock, UInt32.toNat_one, mapBlocks]
  omega

/-- The offset of the data in blocks is a `size_type`. -/
theorem toNat_dataBlockOffset_of_le (hpos : 1 ≤ n.toNat) (hle : n.toNat ≤ 2 ^ 31) :
    (dataBlockOffset n).toUInt32.toNat = 9 + mapBlocks n.toNat := by
  rw [UInt64.toNat_toUInt32, dataBlockOffset, UInt64.toNat_add, toNat_bitmapBlockOffset,
    UInt32.toNat_toUInt64, toNat_bitmapSizeBlocks_of_le hpos hle, mapBlocks]
  omega

/-- A bitmap that could be read is of at least one block. -/
theorem pos_of_bitnslots (h : 0 < (bitnslots n).toNat) : 1 ≤ n.toNat := by
  by_contra hzero
  obtain rfl : n = 0 := UInt32.toNat_inj.mp (by rw [UInt32.toNat_zero]; omega)
  exact absurd h (by decide)

end

/-! ### Reads outside the map -/

section
variable {isFreeCondition : Int32 → Option Int32} {addrOffset : UInt32} {type : String}

/-- The loop comes to each of its blocks. -/
theorem iterateLoop_eq_none (signed : Bool) {m : Nat} {i j : UInt32} {s : Iteration}
    (hj : isFreeCondition j.toInt32 = none) (hi : i.toNat ≤ j.toNat)
    (hlt : j.toNat < i.toNat + m) :
    iterateLoop signed isFreeCondition addrOffset type m i s = none := by
  induction m generalizing i s with
  | zero => omega
  | succ m ih =>
      rw [iterateLoop]
      -- Either this is the block that cannot be looked at, or the loop fails or gets closer to it.
      by_cases hij : i = j
      · rw [hij, iterateBlock, hj]
      · have hne : i.toNat ≠ j.toNat := fun heq => hij (UInt32.toNat_inj.mp heq)
        have hjlt := j.toNat_lt
        have hnext : (i + 1).toNat = i.toNat + 1 := by
          rw [UInt32.toNat_add, UInt32.toNat_one]
          omega
        cases iterateBlock signed isFreeCondition addrOffset type i s with
        | none => rfl
        | some s' => exact ih (by omega) (by omega)

/-- When the test reads outside the bitmap for some block, the whole list of the groups does. -/
theorem iterateBlockStructure_eq_none (signed : Bool) {j n : UInt32}
    (hj : isFreeCondition j.toInt32 = none) (hpos : 1 ≤ j.toNat) (hlt : j.toNat < n.toNat) :
    iterateBlockStructure signed isFreeCondition addrOffset type n = none := by
  rw [iterateBlockStructure]
  cases isFreeCondition 0 with
  | none => rfl
  | some isFree =>
      simp only
      rw [iterateLoop_eq_none signed hj (by rw [UInt32.toNat_one]; exact hpos)
        (by rw [UInt32.toNat_one]; omega)]

/-! ### The words for the blocks -/

/-- All lines of the loop have the type that it was called with. -/
theorem iterateLoop_type {signed : Bool} {m : Nat} {i : UInt32} {s s' : Iteration}
    (h : iterateLoop signed isFreeCondition addrOffset type m i s = some s')
    (hs : ∀ line ∈ s.printed, line.type = type) : ∀ line ∈ s'.printed, line.type = type := by
  induction m generalizing i s with
  | zero =>
      obtain rfl := Option.some.inj h
      exact hs
  | succ m ih =>
      rw [iterateLoop, iterateBlock] at h
      cases hcond : isFreeCondition i.toInt32 with
      | none =>
          rw [hcond] at h
          cases h
      | some isFree =>
          simp only [hcond] at h
          by_cases hsame : intToChar isFree = s.isFreeSpace
          -- A line is printed only where the label changes.
          · rw [if_pos hsame] at h
            exact ih h hs
          · rw [if_neg hsame] at h
            refine ih h ?_
            intro line hline
            rcases List.mem_append.mp hline with hline | hline
            · exact hs line hline
            · rw [List.mem_singleton.mp hline]
              rfl

/-- Each line has the word that is passed. -/
theorem iterateBlockStructure_type {signed : Bool} {n r : UInt32} {lines : List Line}
    (h : iterateBlockStructure signed isFreeCondition addrOffset type n = some (r, lines)) :
    ∀ line ∈ lines, line.type = type := by
  rw [iterateBlockStructure] at h
  cases hcond : isFreeCondition 0 with
  | none =>
      rw [hcond] at h
      cases h
  | some isFree =>
      simp only [hcond] at h
      cases hloop : iterateLoop signed isFreeCondition addrOffset type (n.toNat - 1) 1
          ⟨intToChar isFree, intToChar isFree, 1, addrOffset + 0, []⟩ with
      | none =>
          rw [hloop] at h
          cases h
      | some s =>
          rw [hloop] at h
          obtain ⟨-, rfl⟩ := Prod.mk.inj (Option.some.inj h)
          intro line hline
          rcases List.mem_append.mp hline with hline | hline
          · exact iterateLoop_type hloop (fun line hline => by cases hline) line hline
          · rw [List.mem_singleton.mp hline]
            rfl

end

/-- The block 2^31 has a negative number, and so its slot is in front of the map. -/
theorem isFreeBitmapBlock_negative (signed : Bool) (a : List UInt8) :
    isFreeBitmapBlock signed a (2147483648 : UInt32).toInt32 = none := by
  have hslot : bitslot (2147483648 : UInt32).toInt32 < 0 := by decide
  rw [isFreeBitmapBlock, bittest, readSlot, if_pos hslot]

/-! ### The list of the data blocks -/

section
variable {signed : Bool} {d : Opened} {freeSpaceBitmap : List UInt8}

/-- Without a list of the groups there is no table. -/
theorem info_of_none (hmap : d.freeSpaceMap = some freeSpaceBitmap)
    (hlist : iterateBlockStructure signed (isFreeBitmapBlock signed freeSpaceBitmap)
      (dataBlockOffset d.superblock.nDatablocks).toUInt32 "data" d.superblock.nDatablocks = none) :
    d.info signed = none := by
  rw [Opened.info, hmap]
  simp only [hlist]

/-- With a list of the groups the table is the head and this list. -/
theorem info_of_some {r : UInt32} {lines : List Line}
    (hmap : d.freeSpaceMap = some freeSpaceBitmap)
    (hlist : iterateBlockStructure signed (isFreeBitmapBlock signed freeSpaceBitmap)
      (dataBlockOffset d.superblock.nDatablocks).toUInt32 "data" d.superblock.nDatablocks
        = some (r, lines)) :
    d.info signed = some {
      diskFileSize := d.diskFileSize
      usableDiskSize := usableDataSizeBytes d.superblock.nDatablocks
      nDatablocks := d.superblock.nDatablocks
      rows := headRows d.superblock.nDatablocks ++ lines.map .blocks } := by
  rw [Opened.info, hmap]
  simp only [hlist]

end

section
variable {signed : Bool} {f : ByteFile}

/-- What is printed for a file with at most 2^31 blocks, and which lines are behind the head of the
table. -/
theorem info_opened (signed : Bool) (hpos : 1 ≤ (readSuperblock f).nDatablocks.toNat)
    (hle : (readSuperblock f).nDatablocks.toNat ≤ 2 ^ 31) :
    ∃ lines, (opened f true).info signed = some {
        diskFileSize := UInt32.ofNat f.length
        usableDiskSize := usableDataSizeBytes (readSuperblock f).nDatablocks
        nDatablocks := (readSuperblock f).nDatablocks
        rows := headRows (readSuperblock f).nDatablocks ++ lines.map .blocks } ∧
      Listed (9 + mapBlocks (readSuperblock f).nDatablocks.toNat)
        (readSuperblock f).nDatablocks.toNat (fun i => !usedBit f i) lines ∧
      ∀ line ∈ lines, line.type = "data" := by
  set n := (readSuperblock f).nDatablocks with hn
  have hslots := toNat_bitnslots_of_le hle
  have haddr := toNat_dataBlockOffset_of_le hpos hle
  -- The number of a block is not negative, and its slot is in the part that was read.
  have hcond : ∀ j : UInt32, j.toNat < n.toNat →
      Decides (isFreeBitmapBlock signed (f.extract 36864 (bitnslots n).toNat))
        (fun i => !usedBit f i) j := by
    intro j hj
    have hslot : j.toNat / 8 < (bitnslots n).toNat := by omega
    have hlength : (f.extract 36864 (bitnslots n).toNat).length = (bitnslots n).toNat := by
      rw [ByteFile.extract, List.length_map, List.length_range]
    rw [Decides, isFreeBitmapBlock_eq (by omega) (by rw [hlength]; exact hslot),
      bitAt_extract f hslot]
    cases usedBit f j.toNat with
    | false => rfl
    | true => rfl
  have hlt : (dataBlockOffset n).toUInt32.toNat + n.toNat < 2 ^ 32 := by
    rw [haddr, mapBlocks]
    omega
  obtain ⟨r, lines, hrun, -, hlisted⟩ :=
    iterateBlockStructure_listed signed "data" hpos hcond hlt
  rw [haddr] at hlisted
  exact ⟨lines, info_of_some rfl hrun, hlisted, iterateBlockStructure_type hrun⟩

/-- With more blocks the loop comes to the block 2^31. -/
theorem info_eq_none (signed : Bool) (hlt : 2 ^ 31 < (readSuperblock f).nDatablocks.toNat) :
    (opened f true).info signed = none := by
  have hblock : (2147483648 : UInt32).toNat = 2 ^ 31 := rfl
  refine info_of_none rfl ?_
  exact iterateBlockStructure_eq_none signed (isFreeBitmapBlock_negative signed _)
    (by rw [hblock]; omega) (by rw [hblock]; exact hlt)

end

/-- `read_VFS_info` reads outside the bitmap just when the superblock of a file that can be opened
has more than 2^31 blocks. -/
theorem readVFSInfo_eq_none_iff (signed : Bool) (diskFile : Option ByteFile) (garbage : UInt32) :
    readVFSInfo signed diskFile garbage = none ↔ ∃ d,
      openAndReadVFS diskFile garbage true = .ok d ∧ 2 ^ 31 < d.superblock.nDatablocks.toNat := by
  rw [readVFSInfo]
  cases hopen : openAndReadVFS diskFile garbage true with
  | error r => simp
  | ok d =>
      cases diskFile with
      | none => cases hopen
      | some f =>
          obtain ⟨⟨-, -, hmap⟩, rfl⟩ := openAndReadVFS_ok.mp hopen
          simp only [Option.map_eq_none_iff, Except.ok.injEq, exists_eq_left']
          show _ ↔ 2 ^ 31 < (readSuperblock f).nDatablocks.toNat
          constructor
          · intro hnone
            -- Up to 2^31 blocks the table is there, so that nothing can be outside the bitmap.
            by_contra hle
            obtain ⟨lines, hinfo, -⟩ :=
              info_opened signed (pos_of_bitnslots (hmap rfl).1) (Nat.not_lt.mp hle)
            rw [hinfo] at hnone
            cases hnone
          · exact info_eq_none signed

/-! ### The table -/

/-- The blocks of a row. -/
def Row.extent : Row → Extent
  | .superblock addr size => ⟨addr.toNat, size.toNat⟩
  | .rootDirectory addr size => ⟨addr.toNat, size.toNat⟩
  | .spaceUsageBitmap addr size => ⟨addr.toNat, size.toNat⟩
  | .blocks line => line.extent

/-- The label of a line is that of each of its blocks. -/
theorem Listed.isFree_eq {addr m i : Nat} {free : Nat → Bool} {lines : List Line} {line : Line}
    (h : Listed addr m free lines) (hline : line ∈ lines) (hi : addr + i ∈ line.extent) :
    line.isFree = free i := by
  have hlabel : (lines.flatMap fun line => List.replicate line.extent.len line.isFree)[addr + i
      - addr]? = some line.isFree := h.tiles.getElem?_expand hline hi
  -- The same list read in two ways: by the lines and by the blocks.
  have hexpand := h.encodes.expand
  rw [expand, List.flatMap_map] at hexpand
  have hblock : i < m := by
    have := (h.tiles.between (List.mem_map_of_mem hline)).2
    have := hi.2
    omega
  have hget : ((List.range m).map free)[i]? = some (free i) := by
    rw [List.getElem?_map, List.getElem?_range hblock, Option.map_some]
  rw [Nat.add_sub_cancel_left] at hlabel
  exact (Option.some.inj (hget.symm.trans (hexpand ▸ hlabel))).symm

/-- Each block is in a line. -/
theorem Listed.exists_line {addr m i : Nat} {free : Nat → Bool} {lines : List Line}
    (h : Listed addr m free lines) (hi : i < m) : ∃ line ∈ lines, addr + i ∈ line.extent := by
  have hcover := h.tiles.cover (addr + i)
  rw [if_pos (by omega)] at hcover
  obtain ⟨e, he, hx⟩ := cover_pos.mp (by rw [hcover]; exact Nat.one_pos)
  obtain ⟨line, hline, rfl⟩ := List.mem_map.mp he
  exact ⟨line, hline, hx⟩

/-- The head of the table, up to the data. -/
theorem tiles_headRows {n : UInt32} (hpos : 1 ≤ n.toNat) (hle : n.toNat ≤ 2 ^ 31) :
    Tiles 0 ((headRows n).map Row.extent) (9 + mapBlocks n.toNat) := by
  have hbitmap : bitmapBlockOffset.toUInt32.toNat
      = rootdirBlockOffset.toUInt32.toNat + rootdirSizeBlocks.toUInt32.toNat := by decide
  refine ⟨rfl, by decide, hbitmap, ?_⟩
  show bitmapBlockOffset.toUInt32.toNat + (bitmapSizeBlocks n).toNat = _
  rw [toNat_bitmapSizeBlocks_of_le hpos hle]
  rfl

/-- The rows of the table of a file. -/
structure Tabulated (f : ByteFile) (rows : List Row) : Prop where
  /-- The superblock, the root directory and the bitmap come first, and then the groups. -/
  head : ∃ (bitmapSize : UInt32) (lines : List Line),
    bitmapSize.toNat = mapBlocks (readSuperblock f).nDatablocks.toNat ∧
    rows = .superblock 0 1 :: .rootDirectory 1 8 :: .spaceUsageBitmap 9 bitmapSize ::
      lines.map .blocks
  /-- Without a gap and in order, up to the last block of the disk. -/
  tiles : Tiles 0 (rows.map Row.extent) (9 + mapBlocks (readSuperblock f).nDatablocks.toNat +
    (readSuperblock f).nDatablocks.toNat)
  /-- Groups that are next to each other have different labels. -/
  maximal : rows.IsChain fun row next => ∀ line line', row = .blocks line →
    next = .blocks line' → line'.isFree = !line.isFree
  /-- The row of a data block says what its bit in the file is. -/
  data : ∀ i < (readSuperblock f).nDatablocks.toNat,
    (∃ row ∈ rows,
      9 + mapBlocks (readSuperblock f).nDatablocks.toNat + i ∈ row.extent) ∧
    ∀ row ∈ rows, 9 + mapBlocks (readSuperblock f).nDatablocks.toNat + i ∈ row.extent →
      ∃ line, row = .blocks line ∧ line.type = "data" ∧ line.isFree = !usedBit f i

/-- The head of the table and the groups of the data blocks are the table of the file. -/
theorem tabulated {f : ByteFile} {lines : List Line}
    (hpos : 1 ≤ (readSuperblock f).nDatablocks.toNat)
    (hle : (readSuperblock f).nDatablocks.toNat ≤ 2 ^ 31)
    (h : Listed (9 + mapBlocks (readSuperblock f).nDatablocks.toNat)
      (readSuperblock f).nDatablocks.toNat (fun i => !usedBit f i) lines)
    (htype : ∀ line ∈ lines, line.type = "data") :
    Tabulated f (headRows (readSuperblock f).nDatablocks ++ lines.map .blocks) := by
  have hhead := tiles_headRows hpos hle
  have hextents : (lines.map Row.blocks).map Row.extent = lines.map Line.extent := by
    rw [List.map_map]
    rfl
  constructor
  · exact ⟨_, lines, toNat_bitmapSizeBlocks_of_le hpos hle, rfl⟩
  · rw [List.map_append, hextents]
    exact tiles_append.mpr ⟨_, hhead, h.tiles⟩
  · refine List.isChain_append.mpr ⟨?_, ?_, ?_⟩
    · rw [headRows]
      simp
    · refine (List.isChain_map _).mpr ?_
      refine ((List.isChain_map Line.run).mp h.encodes.maximal).imp ?_
      intro line next hne l l' hl hl'
      obtain rfl := Row.blocks.inj hl
      obtain rfl := Row.blocks.inj hl'
      exact Bool.eq_not_of_ne hne.symm
    · -- The last row of the head has no label.
      intro row hrow next hnext line line' hline
      rw [headRows] at hrow
      obtain rfl := Option.some.inj hrow
      cases hline
  · intro i hi
    constructor
    · obtain ⟨line, hline, hx⟩ := h.exists_line hi
      exact ⟨.blocks line, List.mem_append_right _ (List.mem_map_of_mem hline), hx⟩
    · intro row hrow hx
      rcases List.mem_append.mp hrow with hrow | hrow
      · -- The head stops in front of the data.
        have hstop := (hhead.between (List.mem_map_of_mem hrow)).2
        have := hx.2
        omega
      · obtain ⟨line, hline, rfl⟩ := List.mem_map.mp hrow
        exact ⟨line, rfl, htype line hline, h.isFree_eq hline hx⟩

/-- When `read_VFS_info` prints a table, the file has from 1 to 2^31 blocks, and the table is right:
first the superblock, the root directory and the bitmap, and then the groups of blocks. On a disk
that is shorter than 2^32 bytes the rows end where the file should end, and the blocks are in the
file at the bytes that the macro says. -/
theorem readVFSInfo_table (signed : Bool) (f : ByteFile) (garbage : UInt32) (info : Info)
    (h : readVFSInfo signed (some f) garbage = some (.ok info)) :
    info.nDatablocks = (readSuperblock f).nDatablocks ∧
    1 ≤ info.nDatablocks.toNat ∧ info.nDatablocks.toNat ≤ 2 ^ 31 ∧
    Tabulated f info.rows ∧
    (info.nDatablocks.toNat ≤ 1048534 →
      (9 + mapBlocks info.nDatablocks.toNat + info.nDatablocks.toNat) * blockSize.toNat
        = (predictedVFSFileSize info.nDatablocks).toNat ∧
      ∀ i : UInt32, i < info.nDatablocks →
        (9 + mapBlocks info.nDatablocks.toNat + i.toNat) * blockSize.toNat
          = (dataIthBlockOffset i info.nDatablocks).toNat) := by
  rw [readVFSInfo] at h
  cases hopen : openAndReadVFS (some f) garbage true with
  | error r =>
      rw [hopen] at h
      cases Option.some.inj h
  | ok d =>
      obtain ⟨⟨-, -, hmap⟩, rfl⟩ := openAndReadVFS_ok.mp hopen
      rw [hopen] at h
      have hpos := pos_of_bitnslots (hmap rfl).1
      obtain ⟨info', hinfo', heq⟩ := Option.map_eq_some_iff.mp h
      obtain rfl := Except.ok.inj heq
      -- With more blocks there would be no table.
      have hle : (readSuperblock f).nDatablocks.toNat ≤ 2 ^ 31 := by
        by_contra hlt
        rw [info_eq_none signed (Nat.not_le.mp hlt)] at hinfo'
        cases hinfo'
      obtain ⟨lines, hinfo, hlisted, htype⟩ := info_opened signed hpos hle
      obtain rfl := Option.some.inj (hinfo.symm.trans hinfo')
      refine ⟨rfl, hpos, hle, tabulated hpos hle hlisted htype, ?_⟩
      intro hsmall
      have hblock : blockSize.toNat = 4096 := rfl
      -- Below 2^32 bytes the macros do not wrap, and they count the same blocks.
      constructor
      · show (9 + mapBlocks (readSuperblock f).nDatablocks.toNat +
          (readSuperblock f).nDatablocks.toNat) * _
            = (predictedVFSFileSize (readSuperblock f).nDatablocks).toNat
        rw [predicted_of_le hpos hsmall, mapBlocks, hblock]
        omega
      · intro i hi
        rw [UInt32.lt_iff_toNat_lt] at hi
        rw [toNat_dataIthBlockOffset hpos hsmall hi, toNat_dataByteOffset hpos hsmall, hblock]
        show (9 + mapBlocks (readSuperblock f).nDatablocks.toNat + i.toNat) * 4096 = _
        rw [mapBlocks]
        omega

/-- A disk of twelve blocks, where the blocks 1, 2, 7 and 11 are occupied. -/
def markedDisk : ByteFile :=
  { freshDisk 12 with
      byte := Function.update (Function.update (freshDisk 12).byte 36864 0x86) 36865 0x08 }

/-- Its table has six groups, free and occupied ones in turn. -/
theorem readVFSInfo_table_marked : Tabulated markedDisk
    [.superblock 0 1, .rootDirectory 1 8, .spaceUsageBitmap 9 1,
     .blocks ⟨10, 1, true, "data"⟩, .blocks ⟨11, 2, false, "data"⟩,
     .blocks ⟨13, 4, true, "data"⟩, .blocks ⟨17, 1, false, "data"⟩,
     .blocks ⟨18, 3, true, "data"⟩, .blocks ⟨21, 1, false, "data"⟩] :=
  (readVFSInfo_table true markedDisk 12 ⟨90112, 49104, 12, _⟩ rfl).2.2.2.1

end Soi.SystemPlikow
