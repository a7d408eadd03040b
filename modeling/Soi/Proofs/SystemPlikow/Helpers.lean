import Soi.Lib.RunLength
import Soi.Lib.Tiling
import Soi.Proofs.SystemPlikow.Layout
import Soi.SystemPlikow.Helpers

/-!
# `Soi.Proofs.SystemPlikow.Helpers`: the list is the run-length encoding of the bitmap

`isFreeBitmapBlock_eq` is the bit that `is_free_bitmap_block` reads: the sign of a `char` only fills
bits that the mask does not have. The rest is about any condition that is 0 or 1. The lines that are
printed, with the group that is open behind them, are a row of extents and the encoding of the
blocks so far (`Scanned`), and one more block keeps this (`iterateBlock_scanned`). The label of the
last block is the label of the open group, so that the line behind the loop is right.
-/

set_option autoImplicit false

namespace Soi.SystemPlikow

open Soi.Lib

/-! ### The bits -/

/-- The bit `i` of a bitmap. -/
def bitAt (blockUsageMap : List UInt8) (i : Nat) : Bool :=
  (blockUsageMap.getD (i / 8) 0).toNat.testBit (i % 8)

/-- The low bits of a `char` do not depend on its sign. -/
theorem getLsbD_charToInt (signed : Bool) (c : UInt8) {j : Nat} (hj : j < 8) :
    (charToInt signed c).toBitVec.getLsbD j = c.toNat.testBit j := by
  cases signed with
  | false =>
      show (c.toBitVec.setWidth 32).getLsbD j = c.toBitVec.getLsbD j
      rw [BitVec.getLsbD_setWidth, decide_eq_true (by omega), Bool.true_and]
  | true =>
      show (c.toBitVec.signExtend 32).getLsbD j = c.toBitVec.getLsbD j
      rw [BitVec.getLsbD_signExtend, decide_eq_true (by omega), Bool.true_and, if_pos hj]

section
variable {i : UInt32} {signed : Bool} {blockUsageMap : List UInt8}

/-- Below 2^31 the conversion of an index to `int` keeps its value. -/
theorem toInt_index (hi : i.toNat < 2 ^ 31) : i.toInt32.toInt = i.toNat := by
  show i.toBitVec.toInt = i.toNat
  refine BitVec.toInt_eq_toNat_of_lt ?_
  show 2 * i.toNat < 2 ^ 32
  omega

/-- The slot of a block is its eighth part, read from the map. -/
theorem readSlot_bitslot (hi : i.toNat < 2 ^ 31) (a : List UInt8) :
    readSlot a (bitslot i.toInt32) = a[i.toNat / 8]? := by
  have height : (8 : Int32).toInt = 8 := by decide
  have hslot : (bitslot i.toInt32).toInt = (i.toNat / 8 : Nat) := by
    rw [bitslot, Int32.toInt_div_of_ne_right _ _ (by decide), toInt_index hi, height]
    exact (Int.ofNat_tdiv i.toNat 8).symm
  have hpos : ¬ bitslot i.toInt32 < 0 := by
    rw [Int32.lt_iff_toInt_lt, hslot]
    exact Int.not_lt.mpr (Int.natCast_nonneg _)
  rw [readSlot, if_neg hpos, Int32.toNatClampNeg, hslot, Int.toNat_natCast]

/-- The mask of a block has one bit, the one of the block in its slot. -/
theorem toBitVec_bitmask (hi : i.toNat < 2 ^ 31) :
    (bitmask i.toInt32).toBitVec = BitVec.twoPow 32 (i.toNat % 8) := by
  have height : (8 : Int32).toInt = 8 := by decide
  have hmod : (i.toInt32 % 8).toInt = (i.toNat % 8 : Nat) := by
    rw [Int32.toInt_mod, toInt_index hi, height]
    exact (Int.ofNat_tmod i.toNat 8).symm
  have hshift : i.toInt32 % 8 = Int32.ofNat (i.toNat % 8) := by
    rw [← Int32.toInt_inj, hmod, Int32.toInt_ofNat_of_lt (by omega)]
  have hmask : ∀ j < 8, ((1 : Int32) <<< Int32.ofNat j).toBitVec = BitVec.twoPow 32 j := by decide
  rw [bitmask, hshift]
  exact hmask _ (Nat.mod_lt _ (by omega))

/-- The mask is one bit of the byte. -/
theorem and_bitmask_eq_zero (signed : Bool) (hi : i.toNat < 2 ^ 31) (c : UInt8) :
    charToInt signed c &&& bitmask i.toInt32 = 0 ↔ c.toNat.testBit (i.toNat % 8) = false := by
  have hlt : i.toNat % 8 < 8 := Nat.mod_lt _ (by omega)
  have hand : (charToInt signed c &&& bitmask i.toInt32).toBitVec
      = if c.toNat.testBit (i.toNat % 8) then BitVec.twoPow 32 (i.toNat % 8) else 0#32 := by
    rw [Int32.toBitVec_and, toBitVec_bitmask hi, BitVec.and_twoPow, getLsbD_charToInt _ _ hlt]
  rw [← Int32.toBitVec_inj, hand, Int32.toBitVec_zero]
  cases c.toNat.testBit (i.toNat % 8) with
  | false => exact iff_of_true rfl rfl
  | true =>
      refine iff_of_false ?_ (by decide)
      rw [if_pos rfl, ← BitVec.toNat_inj, BitVec.toNat_twoPow_of_lt (by omega)]
      exact Nat.ne_of_gt (Nat.two_pow_pos _)

/-- A block is free when its bit is 0. -/
theorem isFreeBitmapBlock_eq (hi : i.toNat < 2 ^ 31) (hlen : i.toNat / 8 < blockUsageMap.length) :
    isFreeBitmapBlock signed blockUsageMap i.toInt32
      = some (if bitAt blockUsageMap i.toNat then 0 else 1) := by
  have hread := readSlot_bitslot hi blockUsageMap
  rw [List.getElem?_eq_getElem hlen] at hread
  have hbit : bitAt blockUsageMap i.toNat
      = (blockUsageMap[i.toNat / 8]).toNat.testBit (i.toNat % 8) := by
    rw [bitAt, List.getD_eq_getElem?_getD, List.getElem?_eq_getElem hlen, Option.getD_some]
  rw [isFreeBitmapBlock, bittest, hread, hbit]
  show some (if charToInt signed _ &&& bitmask i.toInt32 = 0 then 1 else 0) = _
  have hzero := and_bitmask_eq_zero signed hi blockUsageMap[i.toNat / 8]
  cases h : (blockUsageMap[i.toNat / 8]).toNat.testBit (i.toNat % 8) with
  | false => rw [if_pos (hzero.mpr h)]; rfl
  | true =>
      rw [if_neg (by rw [hzero, h]; decide)]
      rfl

end

/-! ### The loop -/

/-- The blocks of a line. -/
def Line.extent (line : Line) : Extent := ⟨line.addr.toNat, line.size.toNat⟩

/-- The line as a run of labels. -/
def Line.run (line : Line) : Bool × Nat := (line.isFree, line.size.toNat)

/-- The lines say which of the first `m` blocks are free. The blocks have addresses from `addr`
on. -/
structure Listed (addr m : Nat) (free : Nat → Bool) (lines : List Line) : Prop where
  tiles : Tiles addr (lines.map Line.extent) (addr + m)
  encodes : Encodes (lines.map Line.run) ((List.range m).map free)

section
variable {addr m : Nat} {free : Nat → Bool} {lines : List Line} {line : Line} {type : String}

/-- The first block is a group of its own. -/
theorem listed_one {addrOffset : UInt32} :
    Listed addrOffset.toNat 1 free [⟨addrOffset, 1, free 0, type⟩] :=
  ⟨⟨rfl, rfl⟩, encodes_singleton (free 0)⟩

/-- A block with the label of the last group. -/
theorem Listed.extend (h : Listed addr m free (lines ++ [line])) (hfree : free m = line.isFree)
    (hlt : addr + m + 1 < 2 ^ 32) :
    Listed addr (m + 1) free (lines ++ [{ line with size := line.size + 1 }]) := by
  obtain ⟨htiles, hencodes⟩ := h
  rw [List.map_append] at htiles hencodes
  have hstop : line.addr.toNat + line.size.toNat = addr + m := htiles.stop_eq
  have hsize : (line.size + 1).toNat = line.size.toNat + 1 := by
    rw [UInt32.toNat_add, UInt32.toNat_one]
    omega
  constructor
  · rw [List.map_append, List.map_singleton, Line.extent, hsize]
    exact htiles.grow
  · rw [List.map_append, List.map_singleton, Line.run, hsize, List.range_succ, List.map_append,
      List.map_singleton, hfree]
    exact hencodes.extend

/-- A block with another label. -/
theorem Listed.start {addrOffset i : UInt32} (h : Listed addrOffset.toNat m free (lines ++ [line]))
    (hi : i.toNat = m) (hfree : free m ≠ line.isFree) (hlt : addrOffset.toNat + m < 2 ^ 32) :
    Listed addrOffset.toNat (m + 1) free
      (lines ++ [line] ++ [⟨addrOffset + i, 1, free m, type⟩]) := by
  obtain ⟨htiles, hencodes⟩ := h
  have haddr : (addrOffset + i).toNat = addrOffset.toNat + m := by
    rw [UInt32.toNat_add, hi]
    omega
  constructor
  · rw [List.map_append, List.map_singleton, Line.extent, haddr]
    exact htiles.concat 1
  · rw [List.map_append, List.map_singleton, List.range_succ, List.map_append, List.map_singleton]
    rw [List.map_append] at hencodes ⊢
    exact hencodes.start hfree.symm

end

/-! ### The invariant -/

/-- A label, as a `char`. -/
def labelChar (isFree : Bool) : UInt8 := if isFree then 1 else 0

section
variable {isFreeCondition : Int32 → Option Int32} {addrOffset i n : UInt32}
  {type : String} {free : Nat → Bool} {s : Iteration} {m : Nat}

/-- A label that was stored in a `char` is the same label again. -/
theorem charToInt_labelChar (signed isFree : Bool) :
    (charToInt signed (labelChar isFree) != 0) = isFree := by
  revert signed isFree
  decide

/-- After the first `m` blocks the open group has the label `isFree`, which is that of the last
block. With it the lines say what the blocks are. -/
structure Scanned (addrOffset : UInt32) (type : String) (free : Nat → Bool) (m : Nat)
    (isFree : Bool) (s : Iteration) : Prop where
  space : s.isFreeSpace = labelChar isFree
  block : s.isFreeBlock = labelChar isFree
  listed : Listed addrOffset.toNat m free
    (s.printed ++ [⟨s.currBlockAddr, s.currBlockSize, isFree, type⟩])

/-- The condition says which blocks are free. -/
def Decides (isFreeCondition : Int32 → Option Int32) (free : Nat → Bool) (i : UInt32) : Prop :=
  isFreeCondition i.toInt32 = some (if free i.toNat then 1 else 0)

/-- The labels are 1 and 0, and they fit into a `char`. -/
theorem intToChar_label (isFree : Bool) :
    intToChar (if isFree then 1 else 0) = labelChar isFree := by
  revert isFree
  decide

/-- The two labels are different. -/
theorem labelChar_inj {b c : Bool} : labelChar b = labelChar c ↔ b = c := by
  revert b c
  decide

/-- One more block. -/
theorem iterateBlock_scanned (signed : Bool) {isFree : Bool}
    (h : Scanned addrOffset type free i.toNat isFree s)
    (hcond : Decides isFreeCondition free i) (hlt : addrOffset.toNat + i.toNat + 1 < 2 ^ 32) :
    ∃ s', iterateBlock signed isFreeCondition addrOffset type i s = some s' ∧
      Scanned addrOffset type free (i.toNat + 1) (free i.toNat) s' := by
  rw [iterateBlock, hcond]
  simp only [intToChar_label, h.space, labelChar_inj]
  by_cases hsame : free i.toNat = isFree
  · rw [if_pos hsame]
    refine ⟨_, rfl, ?_, rfl, ?_⟩
    · rw [hsame]
    · rw [hsame]
      exact h.listed.extend hsame hlt
  · rw [if_neg hsame]
    refine ⟨_, rfl, rfl, rfl, ?_⟩
    have hline : printAddrSizeType s.currBlockAddr s.currBlockSize
        (charToInt signed (labelChar isFree)) type
          = ⟨s.currBlockAddr, s.currBlockSize, isFree, type⟩ := by
      rw [printAddrSizeType, charToInt_labelChar]
    rw [hline]
    exact h.listed.start rfl hsame (by omega)

/-- All the blocks of the loop. -/
theorem iterateLoop_scanned (signed : Bool) {isFree : Bool} {k : Nat}
    (h : Scanned addrOffset type free i.toNat isFree s)
    (hcond : ∀ j : UInt32, j.toNat < i.toNat + k → Decides isFreeCondition free j)
    (hlt : addrOffset.toNat + i.toNat + k < 2 ^ 32) :
    ∃ s' isFree', iterateLoop signed isFreeCondition addrOffset type k i s = some s' ∧
      Scanned addrOffset type free (i.toNat + k) isFree' s' := by
  induction k generalizing i s isFree with
  | zero => exact ⟨s, isFree, rfl, h⟩
  | succ k ih =>
      obtain ⟨mid, hstep, hmid⟩ :=
        iterateBlock_scanned signed h (hcond i (by omega)) (by omega)
      have hnext : (i + 1).toNat = i.toNat + 1 := by
        rw [UInt32.toNat_add, UInt32.toNat_one]
        omega
      rw [← hnext] at hmid
      obtain ⟨s', isFree', hloop, hs'⟩ := ih hmid
        (fun j hj => hcond j (by omega)) (by omega)
      refine ⟨s', isFree', ?_, ?_⟩
      · rw [iterateLoop, hstep]
        exact hloop
      · have hcount : (i + 1).toNat + k = i.toNat + (k + 1) := by omega
        rw [← hcount]
        exact hs'

/-- The whole list, for any condition that is 0 or 1. -/
theorem iterateBlockStructure_listed (signed : Bool) (type : String) (hpos : 1 ≤ n.toNat)
    (hcond : ∀ j : UInt32, j.toNat < n.toNat → Decides isFreeCondition free j)
    (hlt : addrOffset.toNat + n.toNat < 2 ^ 32) :
    ∃ r lines, iterateBlockStructure signed isFreeCondition addrOffset type n = some (r, lines) ∧
      r.toNat = addrOffset.toNat + n.toNat ∧ Listed addrOffset.toNat n.toNat free lines := by
  have hfirst : isFreeCondition 0 = some (if free 0 then 1 else 0) := hcond 0 hpos
  have hscanned : Scanned addrOffset type free (1 : UInt32).toNat (free 0)
      ⟨labelChar (free 0), labelChar (free 0), 1, addrOffset + 0, []⟩ := by
    refine ⟨rfl, rfl, ?_⟩
    rw [UInt32.add_zero]
    exact listed_one
  obtain ⟨s, isFree, hloop, hs⟩ := iterateLoop_scanned signed (k := n.toNat - 1)
    hscanned (fun j hj => hcond j (by rw [UInt32.toNat_one] at hj; omega))
    (by rw [UInt32.toNat_one]; omega)
  have hcount : (1 : UInt32).toNat + (n.toNat - 1) = n.toNat := by
    rw [UInt32.toNat_one]
    omega
  rw [hcount] at hs
  rw [iterateBlockStructure, hfirst]
  simp only [intToChar_label, hloop]
  refine ⟨_, _, rfl, ?_, ?_⟩
  · have htiles := hs.listed.tiles
    rw [List.map_append] at htiles
    have hstop : s.currBlockAddr.toNat + s.currBlockSize.toNat = addrOffset.toNat + n.toNat :=
      htiles.stop_eq
    rw [UInt32.toNat_add, hstop]
    omega
  · rw [hs.block, printAddrSizeType, charToInt_labelChar]
    exact hs.listed

end

/-! ### The bitmap -/

/-- The properties of the lines, one by one. -/
theorem Listed.spec {addr m : Nat} {free : Nat → Bool} {lines : List Line}
    (h : Listed addr m free lines) (hm : 1 ≤ m) :
    (∃ line rest, lines = line :: rest ∧ line.addr.toNat = addr) ∧
    lines.IsChain (fun line next => next.addr.toNat = line.addr.toNat + line.size.toNat) ∧
    (∀ line ∈ lines, 1 ≤ line.size.toNat) ∧
    (lines.map fun line => line.size.toNat).sum = m ∧
    lines.IsChain (fun line next => next.isFree = !line.isFree) ∧
    (lines.flatMap fun line => List.replicate line.size.toNat line.isFree)
      = (List.range m).map free := by
  obtain ⟨htiles, hencodes⟩ := h
  refine ⟨?_, ?_, ?_, ?_, ?_, ?_⟩
  · cases lines with
    | nil =>
        have haddr : addr = addr + m := htiles
        omega
    | cons line rest => exact ⟨line, rest, rfl, htiles.1⟩
  · refine ((List.isChain_map Line.extent).mp htiles.isChain).imp ?_
    intro line next htouches
    exact htouches.symm
  · intro line hline
    exact hencodes.pos line.run (List.mem_map_of_mem hline)
  · have hsum := hencodes.sum_eq
    rw [List.map_map, List.length_map, List.length_range] at hsum
    exact hsum
  · refine ((List.isChain_map Line.run).mp hencodes.maximal).imp ?_
    intro line next hne
    exact (Bool.eq_not_of_ne hne.symm)
  · have hexpand := hencodes.expand
    rw [expand, List.flatMap_map] at hexpand
    exact hexpand

/-- The lines are the run-length encoding of the bitmap, with the addresses of the groups. No byte
outside the bitmap is read, since such a read is no result. -/
theorem iterateBlockStructure_bitmap (signed : Bool) (blockUsageMap : List UInt8)
    (n addrOffset : UInt32) (blockType : String) (hpos : 1 ≤ n.toNat) (hn : n.toNat < 2 ^ 31)
    (hlen : blockUsageMap.length = (bitnslots n).toNat)
    (hlt : addrOffset.toNat + n.toNat < 2 ^ 32) :
    ∃ r lines, iterateBlockStructure signed (isFreeBitmapBlock signed blockUsageMap) addrOffset
        blockType n = some (r, lines) ∧
      ((∃ line rest, lines = line :: rest ∧ line.addr.toNat = addrOffset.toNat) ∧
        lines.IsChain (fun line next => next.addr.toNat = line.addr.toNat + line.size.toNat) ∧
        (∀ line ∈ lines, 1 ≤ line.size.toNat) ∧
        (lines.map fun line => line.size.toNat).sum = n.toNat ∧
        lines.IsChain (fun line next => next.isFree = !line.isFree) ∧
        (lines.flatMap fun line => List.replicate line.size.toNat line.isFree)
          = (List.range n.toNat).map fun i => !bitAt blockUsageMap i) ∧
      (∀ rs, Encodes rs ((List.range n.toNat).map fun i => !bitAt blockUsageMap i) →
        rs = lines.map Line.run) ∧
      r.toNat = addrOffset.toNat + n.toNat := by
  have hcond : ∀ j : UInt32, j.toNat < n.toNat →
      Decides (isFreeBitmapBlock signed blockUsageMap) (fun i => !bitAt blockUsageMap i) j := by
    intro j hj
    have hslot : j.toNat / 8 < blockUsageMap.length := by
      rw [hlen, toNat_bitnslots hn]
      omega
    rw [Decides, isFreeBitmapBlock_eq (by omega) hslot]
    cases bitAt blockUsageMap j.toNat with
    | false => rfl
    | true => rfl
  obtain ⟨r, lines, hrun, hr, hlisted⟩ := iterateBlockStructure_listed signed blockType
    hpos hcond hlt
  exact ⟨r, lines, hrun, hlisted.spec hpos, fun rs hrs => hrs.unique hlisted.encodes, hr⟩

/-- Ten blocks, three of which are occupied. -/
theorem iterateBlockStructure_bitmap_tiny :
    ∃ r lines, iterateBlockStructure true (isFreeBitmapBlock true [0x81, 0x02]) 10 "data" 10
        = some (r, lines) ∧ r.toNat = 20 := by
  obtain ⟨r, lines, hrun, -, -, hr⟩ := iterateBlockStructure_bitmap true [0x81, 0x02] 10 10 "data"
    (by decide) (by decide) (by decide) (by decide)
  exact ⟨r, lines, hrun, hr⟩

end Soi.SystemPlikow
