import Mathlib.Logic.Function.Basic

/-!
# `Soi.Pamiec.HoleTable`: the hole table of the memory manager

The table `hole[NR_HOLES]` of `alloc.c` with its two lists: `holeHead` starts the list of the
holes in memory, in ascending order, and `freeSlots` starts the list of the table entries not
in use. A `struct hole *` that points into the table is an index, and `NIL_HOLE` is `none`.
`phys_clicks` is an unsigned 32-bit integer.

This module holds the functions that only touch the table: `delSlot`, `merge`, `freeMem`, and
the scans, the bite and the removal that `alloc_mem`, `swap_out` and `swap_off` are made of. A
call can end in a `Fault`: the panic of the source, a read through a null or unset pointer, or a
walk that does not end. A walk visits one entry after the other, so one that goes past the number
of entries is in a cycle. `fuel` counts the entries still to visit. The loop of `swap_off` comes
back to an entry, and there it counts the steps.
-/

set_option autoImplicit false

namespace Soi.Pamiec

/-- How a call can fail to return. -/
inductive Fault where
  /-- `panic(msg, NO_NUM)`: the system stops. -/
  | panic (msg : String)
  /-- A `struct hole *` that is `NIL_HOLE` or was never set is dereferenced. -/
  | nilHole
  /-- A loop that follows pointers never ends. -/
  | endless
  /-- An array is written outside its bounds. -/
  | overrun
  deriving DecidableEq, Repr

/-- `struct hole`. -/
structure Hole (n : Nat) where
  /-- Pointer to the next entry on the list. -/
  hNext : Option (Fin n)
  /-- Where does the hole begin? -/
  hBase : UInt32
  /-- How big is the hole? -/
  hLen : UInt32
  deriving DecidableEq, Repr

/-- The array `hole` with `n` entries, and the heads of its two lists. -/
structure HoleTable (n : Nat) where
  hole : Fin n → Hole n
  holeHead : Option (Fin n)
  freeSlots : Option (Fin n)

namespace HoleTable

variable {n : Nat}

/-- `hp->h_next = p`. -/
def setNext (t : HoleTable n) (hp : Fin n) (p : Option (Fin n)) : HoleTable n :=
  { t with hole := Function.update t.hole hp { t.hole hp with hNext := p } }

/-- `hp->h_base = base; hp->h_len = len`. -/
def setRange (t : HoleTable n) (hp : Fin n) (base len : UInt32) : HoleTable n :=
  { t with hole := Function.update t.hole hp { t.hole hp with hBase := base, hLen := len } }

/-- `hole_head = p`. -/
def setHead (t : HoleTable n) (p : Option (Fin n)) : HoleTable n := { t with holeHead := p }

/-- `free_slots = p`. -/
def setFree (t : HoleTable n) (p : Option (Fin n)) : HoleTable n := { t with freeSlots := p }

/-- `del_slot`: the entry `hp` leaves the hole list and becomes the first unused entry. The
predecessor is not read when `hp` is the first hole. -/
def delSlot (t : HoleTable n) (prevPtr : Option (Fin n)) (hp : Fin n) :
    Except Fault (HoleTable n) := do
  let t ←
    if t.holeHead = some hp then
      pure (t.setHead (t.hole hp).hNext)
    else
      match prevPtr with
      | none => throw .nilHole
      | some prev => pure (t.setNext prev (t.hole hp).hNext)
  let t := t.setNext hp t.freeSlots
  pure (t.setFree (some hp))

/-- One half of `merge`: `hp` absorbs its successor when the two are contiguous. Returns the
hole that the next half starts from. -/
def absorbNext (t : HoleTable n) (hp next : Fin n) : Except Fault (HoleTable n × Fin n) :=
  if (t.hole hp).hBase + (t.hole hp).hLen = (t.hole next).hBase then do
    let t := t.setRange hp (t.hole hp).hBase ((t.hole hp).hLen + (t.hole next).hLen)
    let t ← t.delSlot (some hp) next
    pure (t, hp)
  else
    pure (t, next)

/-- The second half of `merge`: if `hp` points to the last hole, return; otherwise, try to
absorb its successor. -/
def mergeTail (t : HoleTable n) (hp : Fin n) : Except Fault (HoleTable n) := do
  match (t.hole hp).hNext with
  | none => pure t
  | some next =>
      let (t, _) ← t.absorbNext hp next
      pure t

/-- `merge`: absorb the successor of `hp`, then try once more from the hole reached. -/
def merge (t : HoleTable n) (hp : Fin n) : Except Fault (HoleTable n) := do
  match (t.hole hp).hNext with
  | none => pure t
  | some next =>
      let (t, hp) ← t.absorbNext hp next
      t.mergeTail hp

/-- The loop of `free_mem` that looks for the place of the block: the last hole below `base`,
when the walk starts at `hp` with the predecessor `prevPtr`. -/
def seekPlace (t : HoleTable n) (base : UInt32) :
    (fuel : Nat) → (prevPtr hp : Option (Fin n)) → Except Fault (Option (Fin n))
  | _, prevPtr, none => pure prevPtr
  | 0, _, some _ => throw .endless
  | fuel + 1, prevPtr, some hp =>
      if (t.hole hp).hBase < base then
        t.seekPlace base fuel (some hp) (t.hole hp).hNext
      else
        pure prevPtr

/-- `free_mem` takes the unused entry `newPtr` off its list and writes the block into it. -/
def takeSlot (t : HoleTable n) (newPtr : Fin n) (base clicks : UInt32) : HoleTable n :=
  let t := t.setRange newPtr base clicks
  t.setFree (t.hole newPtr).hNext

/-- `hp == NIL_HOLE || base <= hp->h_base` for the first hole `hp`: the block goes on front of
the hole list. -/
def goesOnFront (t : HoleTable n) (base : UInt32) : Bool :=
  match t.holeHead with
  | none => true
  | some hp => base ≤ (t.hole hp).hBase

/-- The rest of `free_mem`: the entry `newPtr` of the block goes to its place in the hole list
and is merged with the holes on either end. -/
def placeHole (t : HoleTable n) (newPtr : Fin n) (base : UInt32) :
    Except Fault (HoleTable n) :=
  if t.goesOnFront base then
    let t := t.setNext newPtr t.holeHead
    let t := t.setHead (some newPtr)
    t.merge newPtr
  else do
    match ← t.seekPlace base n none t.holeHead with
    | none => throw .nilHole
    | some prevPtr =>
        let t := t.setNext newPtr (t.hole prevPtr).hNext
        let t := t.setNext prevPtr (some newPtr)
        t.merge prevPtr

/-- `free_mem`. -/
def freeMem (t : HoleTable n) (base clicks : UInt32) : Except Fault (HoleTable n) :=
  if clicks = 0 then
    pure t
  else
    match t.freeSlots with
    | none => throw (.panic "Hole table full")
    | some newPtr => (t.takeSlot newPtr base clicks).placeHole newPtr base

/-- `old_base = hp->h_base`, bite `clicks` off the front of the hole, and delete it if it is
used up completely. -/
def bite (t : HoleTable n) (prevPtr : Option (Fin n)) (hp : Fin n) (clicks : UInt32) :
    Except Fault (UInt32 × HoleTable n) := do
  let oldBase := (t.hole hp).hBase
  let t := t.setRange hp (oldBase + clicks) ((t.hole hp).hLen - clicks)
  if (t.hole hp).hLen = 0 then
    let t ← t.delSlot prevPtr hp
    pure (oldBase, t)
  else
    pure (oldBase, t)

/-- One pass of the first-fit loop of `alloc_mem`: the first hole below `swapBase` that is big
enough, with its predecessor. `prev_ptr` is not set on entry. -/
def firstFit (t : HoleTable n) (swapBase clicks : UInt32) :
    (fuel : Nat) → (prevPtr hp : Option (Fin n)) →
      Except Fault (Option (Option (Fin n) × Fin n))
  | _, _, none => pure none
  | 0, _, some _ => throw .endless
  | fuel + 1, prevPtr, some hp =>
      if (t.hole hp).hBase < swapBase then
        if clicks ≤ (t.hole hp).hLen then
          pure (some (prevPtr, hp))
        else
          t.firstFit swapBase clicks fuel (some hp) (t.hole hp).hNext
      else
        pure none

/-- The inner loop of the worst-fit branch of `alloc_mem`: `maxHole` is the biggest hole seen,
`prevToMax` its predecessor. -/
def worstFitLoop (t : HoleTable n) (swapBase : UInt32) :
    (fuel : Nat) → (prevPtr hp prevToMax : Option (Fin n)) → (maxHole : Fin n) →
      Except Fault (Option (Fin n) × Fin n)
  | _, _, none, prevToMax, maxHole => pure (prevToMax, maxHole)
  | 0, _, some _, _, _ => throw .endless
  | fuel + 1, prevPtr, some hp, prevToMax, maxHole =>
      if (t.hole hp).hBase < swapBase then
        if (t.hole maxHole).hLen < (t.hole hp).hLen then
          t.worstFitLoop swapBase fuel (some hp) (t.hole hp).hNext prevPtr hp
        else
          t.worstFitLoop swapBase fuel (some hp) (t.hole hp).hNext prevToMax maxHole
      else
        pure (prevToMax, maxHole)

/-- One pass of the worst-fit branch: `max_hole` starts as `hole_head`, whatever its address
is, and is used when it is big enough. -/
def worstFit (t : HoleTable n) (swapBase clicks : UInt32) :
    Except Fault (Option (Option (Fin n) × Fin n)) :=
  match t.holeHead with
  | none => pure none
  | some head => do
      let (prevToMax, maxHole) ← t.worstFitLoop swapBase n none (some head) none head
      if clicks ≤ (t.hole maxHole).hLen then
        pure (some (prevToMax, maxHole))
      else
        pure none

/-- The loop of `swap_out` that looks for a swap hole: the first hole at or above `swapBase`
that is big enough, with its predecessor. -/
def findSwapHole (t : HoleTable n) (swapBase size : UInt32) :
    (fuel : Nat) → (prevPtr hp : Option (Fin n)) →
      Except Fault (Option (Option (Fin n) × Fin n))
  | _, _, none => pure none
  | 0, _, some _ => throw .endless
  | fuel + 1, prevPtr, some hp =>
      if swapBase ≤ (t.hole hp).hBase ∧ size ≤ (t.hole hp).hLen then
        pure (some (prevPtr, hp))
      else
        t.findSwapHole swapBase size fuel (some hp) (t.hole hp).hNext

/-- The loop of `swap_off` that removes the swap hole, at `hp` behind `prevPtr`. `prev_ptr` is not
set on entry. After a deletion `hp` is `hole_head`, and from there the `for` goes on to the next
hole. -/
def removeSwapHole (swapBase : UInt32) :
    (fuel : Nat) → (t : HoleTable n) → (prevPtr hp : Option (Fin n)) →
      Except Fault (HoleTable n)
  | _, t, _, none => pure t
  | 0, _, _, some _ => throw .endless
  | fuel + 1, t, prevPtr, some hp =>
      if swapBase ≤ (t.hole hp).hBase then do
        let t ← t.delSlot prevPtr hp
        match t.holeHead with
        | none => throw .nilHole
        | some hp => removeSwapHole swapBase fuel t (some hp) (t.hole hp).hNext
      else
        removeSwapHole swapBase fuel t (some hp) (t.hole hp).hNext

end HoleTable

end Soi.Pamiec
