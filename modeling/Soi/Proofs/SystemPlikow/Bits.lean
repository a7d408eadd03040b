import Soi.Proofs.SystemPlikow.Helpers

/-!
# `Soi.Proofs.SystemPlikow.Bits`: blocks are taken and given back

`BITSET` and `BITCLEAR` read a `char` as an `int`, change one bit and store a `char`. Whether the
`char` is signed makes no difference, since only the low 8 bits are stored (`bitAt_writeBit`). A
sequence of changes writes in each block what the last change of this block says
(`writeBits_spec`), and `iterate_block_structure` lists what has been written
(`iterateBlockStructure_writeBits`).
-/

set_option autoImplicit false

namespace Soi.SystemPlikow

open Soi.Lib

/-- A change of the bit of a block: `BITSET` when the block becomes occupied, and `BITCLEAR`. -/
abbrev Change : Type := UInt32 × Bool

/-- One change of the map. -/
def writeBit (signed : Bool) (a : List UInt8) (change : Change) : Option (List UInt8) :=
  if change.2 then bitset signed a change.1.toInt32 else bitclear signed a change.1.toInt32

/-- The changes one after the other. -/
def writeBits (signed : Bool) (changes : List Change) (a : List UInt8) : Option (List UInt8) :=
  changes.foldlM (writeBit signed) a

/-- Whether the block is occupied behind the changes: the last one of them decides. -/
def occupied (changes : List Change) (a : List UInt8) (i : Nat) : Bool :=
  ((changes.reverse.find? fun change => change.1.toNat == i).map Prod.snd).getD (bitAt a i)

/-- A change at the end decides about its block, and about no other one. -/
theorem occupied_concat (changes : List Change) (change : Change) (a : List UInt8) (i : Nat) :
    occupied (changes ++ [change]) a i
      = if change.1.toNat = i then change.2 else occupied changes a i := by
  rw [occupied, List.reverse_append, List.reverse_singleton, List.singleton_append,
    List.find?_cons]
  by_cases hi : change.1.toNat = i
  · rw [beq_iff_eq.mpr hi, if_pos hi]
    rfl
  · rw [beq_eq_false_iff_ne.mpr hi, if_neg hi]
    rfl

/-! ### One change -/

/-- The bits of a `char` are the low bits of the `int`. -/
theorem testBit_intToChar (n : Int32) {j : Nat} (hj : j < 8) :
    (intToChar n).toNat.testBit j = n.toBitVec.getLsbD j := by
  show (n.toBitVec.setWidth 8).getLsbD j = _
  rw [BitVec.getLsbD_setWidth, decide_eq_true hj, Bool.true_and]

section
variable {i : UInt32} {signed : Bool} {a : List UInt8}

/-- The slot of a block, as an index. -/
theorem toNatClampNeg_bitslot (hi : i.toNat < 2 ^ 31) :
    (bitslot i.toInt32).toNatClampNeg = i.toNat / 8 := by
  have height : (8 : Int32).toInt = 8 := by decide
  rw [Int32.toNatClampNeg, bitslot, Int32.toInt_div_of_ne_right _ _ (by decide), toInt_index hi,
    height]
  show ((i.toNat : Int).tdiv (8 : Nat)).toNat = _
  rw [← Int.ofNat_tdiv, Int.toNat_natCast]

/-- `BITSET` sets one bit of the byte, whatever sign a `char` has. -/
theorem testBit_set (signed : Bool) (hi : i.toNat < 2 ^ 31) (c : UInt8) {j : Nat} (hj : j < 8) :
    (intToChar (charToInt signed c ||| bitmask i.toInt32)).toNat.testBit j
      = if i.toNat % 8 = j then true else c.toNat.testBit j := by
  rw [testBit_intToChar _ hj, Int32.toBitVec_or, BitVec.getLsbD_or, getLsbD_charToInt _ _ hj,
    toBitVec_bitmask hi, BitVec.getLsbD_twoPow, decide_eq_true (by omega), Bool.true_and]
  by_cases hij : i.toNat % 8 = j
  · simp [hij]
  · simp [hij]

/-- `BITCLEAR` clears one bit of the byte, whatever sign a `char` has. -/
theorem testBit_clear (signed : Bool) (hi : i.toNat < 2 ^ 31) (c : UInt8) {j : Nat} (hj : j < 8) :
    (intToChar (charToInt signed c &&& ~~~bitmask i.toInt32)).toNat.testBit j
      = if i.toNat % 8 = j then false else c.toNat.testBit j := by
  rw [testBit_intToChar _ hj, Int32.toBitVec_and, Int32.toBitVec_not, BitVec.getLsbD_and,
    getLsbD_charToInt _ _ hj, BitVec.getLsbD_not, toBitVec_bitmask hi, BitVec.getLsbD_twoPow,
    decide_eq_true (by omega), Bool.true_and, decide_eq_true (by omega), Bool.true_and]
  by_cases hij : i.toNat % 8 = j
  · simp [hij]
  · simp [hij]

/-- What a change of one bit does to the map, from what it does to the byte. -/
theorem bitAt_set {c : UInt8} {v : Bool} (hslot : i.toNat / 8 < a.length)
    (hbyte : ∀ j < 8, c.toNat.testBit j
      = if i.toNat % 8 = j then v else a[i.toNat / 8].toNat.testBit j) (j : Nat) :
    bitAt (a.set (i.toNat / 8) c) j = if i.toNat = j then v else bitAt a j := by
  rw [bitAt, bitAt, List.getD_eq_getElem?_getD, List.getD_eq_getElem?_getD, List.getElem?_set]
  by_cases hsame : i.toNat / 8 = j / 8
  · -- The bit is in the byte that is stored.
    have hget : a[j / 8]? = some a[i.toNat / 8] := by
      rw [← hsame]
      exact List.getElem?_eq_getElem hslot
    rw [if_pos hsame, if_pos (by omega), hget, Option.getD_some, Option.getD_some,
      hbyte _ (Nat.mod_lt _ (by omega))]
    exact if_congr (by omega) rfl rfl
  · rw [if_neg hsame, if_neg (by omega)]

/-- One change of a block of the map. -/
theorem bitAt_writeBit (signed : Bool) (v : Bool) (hi : i.toNat < 2 ^ 31)
    (hslot : i.toNat / 8 < a.length) :
    ∃ a', writeBit signed a (i, v) = some a' ∧ a'.length = a.length ∧
      ∀ j, bitAt a' j = if i.toNat = j then v else bitAt a j := by
  have hread := readSlot_bitslot hi a
  have hclamp : (bitslot i.toInt32).toNatClampNeg = i.toNat / 8 := toNatClampNeg_bitslot hi
  rw [List.getElem?_eq_getElem hslot] at hread
  -- `BITSET` and `BITCLEAR` differ only in what they do to the byte.
  cases v with
  | true =>
      refine ⟨_, ?_, List.length_set, bitAt_set hslot fun j hj => testBit_set signed hi _ hj⟩
      show bitset signed a i.toInt32 = _
      rw [bitset, hread, hclamp]
  | false =>
      refine ⟨_, ?_, List.length_set, bitAt_set hslot fun j hj => testBit_clear signed hi _ hj⟩
      show bitclear signed a i.toInt32 = _
      rw [bitclear, hread, hclamp]

end

/-! ### Many changes -/

section
variable {signed : Bool} {changes : List Change} {a : List UInt8}

/-- The changes are of blocks of the map. They write no byte outside it, and the last change of a
block decides about it. -/
theorem writeBits_spec (signed : Bool)
    (hblocks : ∀ change ∈ changes, change.1.toNat < 2 ^ 31 ∧ change.1.toNat / 8 < a.length) :
    ∃ a', writeBits signed changes a = some a' ∧ a'.length = a.length ∧
      ∀ i, bitAt a' i = occupied changes a i := by
  induction changes using List.reverseRecOn with
  -- The induction is on the last change, since `occupied` looks for it first.
  | nil => exact ⟨a, rfl, rfl, fun i => rfl⟩
  | append_singleton changes change ih =>
      obtain ⟨b, hb, hlength, hbits⟩ := ih fun change hchange =>
        hblocks change (List.mem_append_left _ hchange)
      obtain ⟨hi, hslot⟩ := hblocks change (by simp)
      obtain ⟨c, hc, hlength', hbits'⟩ :=
        bitAt_writeBit (a := b) signed change.2 hi (by omega)
      refine ⟨c, ?_, hlength'.trans hlength, ?_⟩
      · rw [writeBits] at hb ⊢
        rw [List.foldlM_append, hb]
        show (writeBit signed b change >>= pure) = _
        rw [bind_pure]
        exact hc
      · intro i
        rw [hbits', occupied_concat, hbits]

/-- Blocks of a disk are taken and given back in any order. The map keeps its length, and each of
its bits is as the last change of the block has left it, or as it was. Then
`iterate_block_structure` lists the blocks in this way. -/
theorem iterateBlockStructure_writeBits (signed : Bool) (blockUsageMap : List UInt8)
    (changes : List Change) (n addrOffset : UInt32) (blockType : String) (hpos : 1 ≤ n.toNat)
    (hn : n.toNat < 2 ^ 31) (hlen : blockUsageMap.length = (bitnslots n).toNat)
    (hlt : addrOffset.toNat + n.toNat < 2 ^ 32)
    (hblocks : ∀ change ∈ changes, change.1.toNat < n.toNat) :
    ∃ written r lines, writeBits signed changes blockUsageMap = some written ∧
      written.length = blockUsageMap.length ∧
      (∀ i, bitAt written i = occupied changes blockUsageMap i) ∧
      iterateBlockStructure signed (isFreeBitmapBlock signed written) addrOffset blockType n
        = some (r, lines) ∧
      Listed addrOffset.toNat n.toNat (fun i => !occupied changes blockUsageMap i) lines := by
  -- The map has a slot for each block of the disk, so that no change is outside it.
  have hslots : blockUsageMap.length = (n.toNat + 7) / 8 := hlen.trans (toNat_bitnslots hn)
  obtain ⟨written, hwritten, hlength, hbits⟩ :=
    writeBits_spec (a := blockUsageMap) signed fun change hchange => by
      have := hblocks change hchange
      exact ⟨by omega, by omega⟩
  -- A block is free when its bit is 0.
  have hcond : ∀ j : UInt32, j.toNat < n.toNat → Decides (isFreeBitmapBlock signed written)
      (fun i => !occupied changes blockUsageMap i) j := by
    intro j hj
    rw [Decides, isFreeBitmapBlock_eq (by omega) (by omega), hbits]
    cases occupied changes blockUsageMap j.toNat with
    | false => rfl
    | true => rfl
  obtain ⟨r, lines, hlist, -, hlisted⟩ :=
    iterateBlockStructure_listed signed blockType hpos hcond hlt
  exact ⟨written, r, lines, hwritten, hlength, hbits, hlist, hlisted⟩

/-- The block 7 is taken and given back, and the block 1 is taken. -/
theorem iterateBlockStructure_writeBits_tiny :
    ∃ r lines, writeBits true [(7, true), (1, true), (7, false)] [0x80] = some [0x02] ∧
      iterateBlockStructure true (isFreeBitmapBlock true [0x02]) 10 "data" 8 = some (r, lines) ∧
      Listed 10 8 (fun i => !occupied [(7, true), (1, true), (7, false)] [0x80] i) lines := by
  obtain ⟨written, r, lines, hwritten, -, -, hlist, hlisted⟩ :=
    iterateBlockStructure_writeBits true [0x80] [(7, true), (1, true), (7, false)] 8 10 "data"
      (by decide) (by decide) (by decide) (by decide) (by simp)
  have hbyte : writeBits true [(7, true), (1, true), (7, false)] [0x80] = some [0x02] := by decide
  obtain rfl : written = [0x02] := Option.some.inj (hwritten.symm.trans hbyte)
  exact ⟨r, lines, hbyte, hlist, hlisted⟩

end

end Soi.SystemPlikow
