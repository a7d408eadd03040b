import Mathlib.Data.UInt

/-!
# `Soi.SystemPlikow.Helpers`: the list of the free and occupied blocks

The functions of `helpers.c`, with the bit operations of `types.h`. A `bitmap` is a pointer to bytes
of the type `char`, which is signed or not: `signed` says which. A read outside the map is `none`. A
pointer to a function that reads the structure behind another pointer is a function of the index.
-/

set_option autoImplicit false

namespace Soi.SystemPlikow

/-- A `char`, as an `int`. -/
def charToInt (signed : Bool) (c : UInt8) : Int32 :=
  if signed then c.toInt8.toInt32 else c.toUInt32.toInt32

/-- An `int`, as a `char`. -/
def intToChar (n : Int32) : UInt8 := n.toUInt32.toUInt8

/-- `BITMASK`. -/
def bitmask (b : Int32) : Int32 := 1 <<< (b % 8)

/-- `BITSLOT`. -/
def bitslot (b : Int32) : Int32 := b / 8

/-- `(a)[slot]`. -/
def readSlot (a : List UInt8) (slot : Int32) : Option UInt8 :=
  if slot < 0 then none else a[slot.toNatClampNeg]?

/-- `BITTEST`. -/
def bittest (signed : Bool) (a : List UInt8) (b : Int32) : Option Int32 :=
  match readSlot a (bitslot b) with
  | none => none
  | some c => some (charToInt signed c &&& bitmask b)

/-- `BITSET`: the `char` becomes an `int` and a `char` again. -/
def bitset (signed : Bool) (a : List UInt8) (b : Int32) : Option (List UInt8) :=
  match readSlot a (bitslot b) with
  | none => none
  | some c =>
      some (a.set (bitslot b).toNatClampNeg (intToChar (charToInt signed c ||| bitmask b)))

/-- `BITCLEAR`. -/
def bitclear (signed : Bool) (a : List UInt8) (b : Int32) : Option (List UInt8) :=
  match readSlot a (bitslot b) with
  | none => none
  | some c =>
      some (a.set (bitslot b).toNatClampNeg (intToChar (charToInt signed c &&& ~~~bitmask b)))

/-- `is_free_bitmap_block`. -/
def isFreeBitmapBlock (signed : Bool) (blockUsageMap : List UInt8) (i : Int32) : Option Int32 :=
  match bittest signed blockUsageMap i with
  | none => none
  | some bit => some (if bit = 0 then 1 else 0)

/-- A line of the list: a group of blocks, with the word for its blocks. -/
structure Line where
  addr : UInt32
  size : UInt32
  /-- `free`, and otherwise `occupied`. -/
  isFree : Bool
  type : String
  deriving DecidableEq, Repr

/-- `print_addr_size_type`. -/
def printAddrSizeType (addr size : UInt32) (isFree : Int32) (type : String) : Line :=
  ⟨addr, size, isFree != 0, type⟩

/-- The variables of `iterate_block_structure`, and the lines that it has printed. -/
structure Iteration where
  isFreeSpace : UInt8
  isFreeBlock : UInt8
  currBlockSize : UInt32
  currBlockAddr : UInt32
  printed : List Line

section
variable (signed : Bool) (isFreeCondition : Int32 → Option Int32) (addrOffset : UInt32)
  (blockType : String)

/-- The body of the loop of `iterate_block_structure`. -/
def iterateBlock (i : UInt32) (s : Iteration) : Option Iteration :=
  match isFreeCondition i.toInt32 with
  | none => none
  | some isFree =>
      let isFreeBlock := intToChar isFree
      if isFreeBlock = s.isFreeSpace then
        some { s with isFreeBlock, currBlockSize := s.currBlockSize + 1 }
      else
        some {
          isFreeSpace := isFreeBlock
          isFreeBlock
          currBlockSize := 1
          currBlockAddr := addrOffset + i
          printed := s.printed ++ [printAddrSizeType s.currBlockAddr s.currBlockSize
            (charToInt signed s.isFreeSpace) blockType] }

/-- The loop of `iterate_block_structure`, for the `m` blocks from `i` on. -/
def iterateLoop : Nat → UInt32 → Iteration → Option Iteration
  | 0, _, s => some s
  | m + 1, i, s =>
      match iterateBlock signed isFreeCondition addrOffset blockType i s with
      | none => none
      | some s => iterateLoop m (i + 1) s

/-- `iterate_block_structure`, with its return value and the lines that it prints. The loop starts
with the block 1. -/
def iterateBlockStructure (maxLoop : UInt32) : Option (UInt32 × List Line) :=
  match isFreeCondition 0 with
  | none => none
  | some isFree =>
      let isFreeBlock := intToChar isFree
      let first : Iteration := {
        isFreeSpace := isFreeBlock
        isFreeBlock
        currBlockSize := 1
        currBlockAddr := addrOffset + 0
        printed := [] }
      match iterateLoop signed isFreeCondition addrOffset blockType (maxLoop.toNat - 1) 1 first with
      | none => none
      | some s =>
          some (s.currBlockAddr + s.currBlockSize,
            s.printed ++ [printAddrSizeType s.currBlockAddr s.currBlockSize
              (charToInt signed s.isFreeBlock) blockType])

end

end Soi.SystemPlikow
