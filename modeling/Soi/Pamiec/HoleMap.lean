import Soi.Pamiec.Alloc

/-!
# `Soi.Pamiec.HoleMap`: the `HOLE_MAP` call and its reader

`do_hole_map` of `alloc.c` copies the memory holes to the caller, and the loop of `t.c` reads
them. The message carries the size of the caller's buffer as an `int`. The code only uses it
in operations with `sizeof(phys_clicks)`, which are unsigned, so that it is a `UInt32` here.

The array `buffer` is the list of the words written so far, and the index `i` is its length.
-/

set_option autoImplicit false

namespace Soi.Pamiec

/-- `sizeof(phys_clicks)`. -/
def sizeofPhysClicks : UInt32 := 4

/-- The result of `do_hole_map`, and the words that `sys_copy` copied to the caller. -/
structure HoleMapReply where
  result : Int
  copied : Option (List UInt32)
  deriving DecidableEq, Repr

/-- How many pairs fit into a buffer of `nbytes`. -/
def nrPairs (nbytes : UInt32) : Int :=
  let nrPairs : Int := ((nbytes / sizeofPhysClicks - 1) / 2).toNat
  if nrPairs < 0 then 0 else nrPairs

/-- `buffer[i] = word`, where `size` is the size of the array. -/
def putWord (size : Nat) (buffer : List UInt32) (word : UInt32) : Except Fault (List UInt32) :=
  if buffer.length < size then pure (buffer ++ [word]) else throw .overrun

/-- The loop of `do_hole_map` from the hole `hp` on. -/
def HoleTable.holeMapLoop {n : Nat} (t : HoleTable n) (swapBase : UInt32) :
    (fuel : Nat) → (hp : Option (Fin n)) → (nrPairs : Int) → (buffer : List UInt32) →
      Except Fault (List UInt32)
  | _, none, _, buffer => pure buffer
  | 0, some _, _, _ => throw .endless
  | fuel + 1, some hp, nrPairs, buffer =>
      if (t.hole hp).hBase < swapBase ∧ nrPairs > 0 then do
        let buffer ← putWord (2 * n + 1) buffer (t.hole hp).hLen
        let buffer ← putWord (2 * n + 1) buffer (t.hole hp).hBase
        t.holeMapLoop swapBase fuel (t.hole hp).hNext (nrPairs - 1) buffer
      else
        pure buffer

/-- `do_hole_map`, which writes no variable of the memory manager. -/
def Mm.doHoleMap [MmConfig] (mm : Mm) (nbytes : UInt32) : Except Fault HoleMapReply :=
  let pairs := nrPairs nbytes
  if nbytes < sizeofPhysClicks then
    -- can't even put in a 0
    pure ⟨-1, none⟩
  else do
    let buffer ← mm.table.holeMapLoop mm.swapBase nrHoles mm.table.holeHead pairs []
    let words ← putWord (2 * nrHoles + 1) buffer 0
    pure ⟨buffer.length / 2, some words⟩

/-- The loop of `main` in `t.c` on the words from `p` on: the pairs that it read, and what `p`
points to in the end. -/
def readHoles : List UInt32 → Except Fault (List (UInt32 × UInt32) × List UInt32)
  | [] => throw .overrun
  | [l] => if l = 0 then pure ([], [l]) else throw .overrun
  | l :: a :: p =>
      if l = 0 then
        pure ([], l :: a :: p)
      else do
        let (holes, p) ← readHoles p
        pure ((l, a) :: holes, p)

end Soi.Pamiec
