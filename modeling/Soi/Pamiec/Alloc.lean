import Mathlib.Algebra.Group.Nat.Defs
import Mathlib.Data.List.FinRange
import Soi.Lib.Transfer
import Soi.Pamiec.HoleTable

/-!
# `Soi.Pamiec.Alloc`: the memory manager of `alloc.c`

The variables of `alloc.c` and the fields of `struct mproc` that it reads and writes, with its
functions. The constants of the system that are not in the repository are the class `MmConfig`.
The bits of `mp_flags` are the fields of `MpFlags`.

The rest of the system is seen only at the calls. `open` hands its result to `swapOn`, and the
kernel's replies to `SYS_MEM` are the argument of `memInit`. The swap file is its position and
the log of the transfers `rw_seg` made on it. `tell_fs`, `sys_newmap` and `check_pending` change
nothing that is modelled here.
-/

set_option autoImplicit false

namespace Soi.Pamiec

open Soi.Lib

/-- The constants of the system headers. -/
class MmConfig where
  /-- `NR_PROCS`: number of slots of the process table `mproc`. -/
  nrProcs : Nat
  /-- `LOW_USER`: the first slot of a user process. -/
  lowUser : Nat
  /-- `CLICK_SHIFT`: log2 of the size of a click in bytes. -/
  clickShift : Nat
  lowUser_lt : lowUser < nrProcs
  clickShift_lt : clickShift < 32

export MmConfig (nrProcs lowUser clickShift)

/-- `NR_HOLES`: max # entries in hole table. -/
def nrHoles [MmConfig] : Nat := 2 * nrProcs

/-- `NO_MEM`: returned by `alloc_mem` when memory is up. -/
def noMem : UInt32 := 0

/-- `struct mem_map`. -/
structure MemMap where
  memVir : UInt32
  memPhys : UInt32
  memLen : UInt32
  deriving DecidableEq, Repr

/-- The bits of `mp_flags` that `alloc.c` reads or writes. -/
structure MpFlags where
  paused : Bool
  waiting : Bool
  sigsuspended : Bool
  traced : Bool
  reply : Bool
  onswap : Bool
  swapin : Bool
  deriving DecidableEq, Repr

/-- No bit is set. -/
def MpFlags.none : MpFlags := ⟨false, false, false, false, false, false, false⟩

/-- Blocked on a system call that MM handles: `PAUSED | WAITING | SIGSUSPENDED`. -/
def MpFlags.blocked (f : MpFlags) : Bool := f.paused || f.waiting || f.sigsuspended

/-- Already on swap or otherwise to be avoided: `TRACED | REPLY | ONSWAP`. -/
def MpFlags.avoided (f : MpFlags) : Bool := f.traced || f.reply || f.onswap

/-- A process of these flags may be swapped out. -/
def MpFlags.swappable (f : MpFlags) : Bool := f.blocked && !f.avoided

/-- The answer of the kernel to `SYS_MEM`. -/
structure SysMem where
  base : UInt32
  size : UInt32
  total : UInt32
  deriving DecidableEq, Repr

section
variable [MmConfig]

/-- The fields of `struct mproc` that `alloc.c` uses. -/
structure Mproc where
  /-- `mp_seg[D]`. -/
  segD : MemMap
  /-- `mp_seg[S]`. -/
  segS : MemMap
  mpFlags : MpFlags
  /-- Queue of processes wanting to swap in. -/
  mpSwapq : Option (Fin nrProcs)
  deriving DecidableEq, Repr

/-- The size of a process image, from the start of the data segment to the end of the stack. -/
def Mproc.imageSize (rmp : Mproc) : UInt32 :=
  rmp.segS.memVir + rmp.segS.memLen - rmp.segD.memVir

/-- The process image now starts at `newBase`. -/
def Mproc.moveTo (rmp : Mproc) (newBase : UInt32) : Mproc :=
  { rmp with
      segD := { rmp.segD with memPhys := newBase }
      segS := { rmp.segS with memPhys := newBase + (rmp.segS.memVir - rmp.segD.memVir) } }

/-- The state of the memory manager. -/
structure Mm where
  /-- `hole`, `hole_head` and `free_slots`. -/
  table : HoleTable nrHoles
  /-- File descriptor of open swap file/device. -/
  swapFd : Int
  /-- Offset to start of swap area on swap file. -/
  swapOffset : UInt32
  /-- Memory offset chosen as swap base. -/
  swapBase : UInt32
  /-- Maximum amount of swap "memory" possible. -/
  swapMaxsize : UInt32
  /-- Queue of processes wanting to swap in. -/
  inQueue : Option (Fin nrProcs)
  /-- Outswap candidate? -/
  outswap : Fin nrProcs
  worstFit : Int
  mproc : Fin nrProcs → Mproc
  /-- Position of `swap_fd`. -/
  filePos : Nat
  /-- Transfers of images on `swap_fd`, as ranges of bytes, the last one first. -/
  swapIo : List (Transfer (Fin nrProcs))

namespace Mm

/-- `mproc[i] = rmp`. -/
def setProc (mm : Mm) (i : Fin nrProcs) (rmp : Mproc) : Mm :=
  { mm with mproc := Function.update mm.mproc i rmp }

/-- `lseek(swap_fd, off, SEEK_SET)`. The type `off_t` is signed, and a negative offset leaves
the position alone. -/
def lseek (mm : Mm) (off : UInt32) : Mm :=
  { mm with filePos := if off.toNat < 2 ^ 31 then off.toNat else mm.filePos }

/-- The offset in the swap file of the swap "memory" at `base`. -/
def swapFileOff (mm : Mm) (base : UInt32) : UInt32 :=
  mm.swapOffset + ((base - mm.swapBase) <<< UInt32.ofNat clickShift)

/-- `rw_seg(1, swap_fd, proc_nr, D, bytes)`: the image goes to the file. -/
def writeSeg (mm : Mm) (proc : Fin nrProcs) (bytes : UInt32) : Mm :=
  { mm with
      swapIo := .write proc ⟨mm.filePos, bytes.toNat⟩ :: mm.swapIo
      filePos := mm.filePos + bytes.toNat }

/-- `rw_seg(0, swap_fd, proc_nr, D, bytes)`: the image comes from the file. -/
def readSeg (mm : Mm) (proc : Fin nrProcs) (bytes : UInt32) : Mm :=
  { mm with
      swapIo := .read proc ⟨mm.filePos, bytes.toNat⟩ :: mm.swapIo
      filePos := mm.filePos + bytes.toNat }

/-- `++rmp`, from the last slot back to the first user process. -/
def nextProc (rmp : Fin nrProcs) : Fin nrProcs :=
  if h : rmp.val + 1 < nrProcs then ⟨rmp.val + 1, h⟩ else ⟨lowUser, MmConfig.lowUser_lt⟩

/-- The body of the loop of `swap_out` for the process `i`: `none` when it is not a candidate
or no swap hole is big enough. -/
def swapOutProc (mm : Mm) (i : Fin nrProcs) : Except Fault (Option Mm) :=
  let rmp := mm.mproc i
  if !rmp.mpFlags.blocked then
    pure none
  else if rmp.mpFlags.avoided then
    pure none
  else do
    let size := rmp.imageSize
    match ← mm.table.findSwapHole mm.swapBase size nrHoles none mm.table.holeHead with
    | none => pure none
    | some (prevPtr, hp) =>
        let (newBase, table) ← mm.table.bite prevPtr hp size
        let mm := { mm with table := table }
        let mm := mm.lseek (mm.swapFileOff newBase)
        let mm := mm.writeSeg i (size <<< UInt32.ofNat clickShift)
        let oldBase := rmp.segD.memPhys
        let rmp := rmp.moveTo newBase
        let table ← mm.table.freeMem oldBase size
        let rmp := { rmp with mpFlags := { rmp.mpFlags with onswap := true } }
        pure (some { mm.setProc i rmp with table := table, outswap := i })

/-- The loop of `swap_out` from the slot `i` on. It ends when it is back at `outswap`. -/
def swapOutLoop (mm : Mm) : (fuel : Nat) → (i : Fin nrProcs) → Except Fault (Option Mm)
  | 0, _ => throw .endless
  | fuel + 1, i => do
      let i := nextProc i
      match ← mm.swapOutProc i with
      | some mm' => pure (some mm')
      | none => if i = mm.outswap then pure none else mm.swapOutLoop fuel i

/-- `swap_out`: the state after one process was swapped out, or `none` for `FALSE`, which
leaves the state alone. -/
def swapOut (mm : Mm) : Except Fault (Option Mm) := mm.swapOutLoop nrProcs mm.outswap

/-- One pass over the hole list in the placement mode chosen by `worst_fit`: the hole to use,
with its predecessor. -/
def fit (mm : Mm) (clicks : UInt32) :
    Except Fault (Option (Option (Fin nrHoles) × Fin nrHoles)) :=
  if mm.worstFit = 0 then
    mm.table.firstFit mm.swapBase clicks nrHoles none mm.table.holeHead
  else
    mm.table.worstFit mm.swapBase clicks

/-- The `do ... while (swap_out())` of both branches of `alloc_mem`. `rounds` bounds the number
of passes: each further one needs a process that was not on swap before. -/
def allocLoop : (rounds : Nat) → (mm : Mm) → (clicks : UInt32) → Except Fault (UInt32 × Mm)
  | 0, _, _ => throw .endless
  | rounds + 1, mm, clicks => do
      match ← mm.fit clicks with
      | some (prevPtr, hp) =>
          let (oldBase, table) ← mm.table.bite prevPtr hp clicks
          pure (oldBase, { mm with table := table })
      | none =>
          match ← mm.swapOut with
          | some mm => allocLoop rounds mm clicks
          | none => pure (noMem, mm)

/-- `alloc_mem`. -/
def allocMem (mm : Mm) (clicks : UInt32) : Except Fault (UInt32 × Mm) :=
  allocLoop (nrProcs + 1) mm clicks

/-- `free_mem`. -/
def freeMem (mm : Mm) (base clicks : UInt32) : Except Fault Mm := do
  let table ← mm.table.freeMem base clicks
  pure { mm with table := table }

/-- The loop of `mem_init` over the answers to `SYS_MEM`; no answer stands for one of size 0.
A failed call is `none`. `total` and `free` are the two results. -/
def memInitLoop : (replies : List (Option SysMem)) → (mm : Mm) → (total free : UInt32) →
    Except Fault (Mm × UInt32 × UInt32)
  | [], mm, total, free => pure (mm, total, free)
  | none :: _, _, _, _ => throw (.panic "bad SYS_MEM?")
  | some r :: replies, mm, total, free =>
      if r.size = 0 then
        pure (mm, total, free)
      else do
        let mm ← mm.freeMem r.base r.size
        let mm :=
          if mm.swapBase < r.base + r.size then { mm with swapBase := r.base + r.size } else mm
        memInitLoop replies mm r.total (free + r.size)

/-- All entries of the table linked as unused ones. -/
def clearTable (t : HoleTable nrHoles) : HoleTable nrHoles where
  hole hp := { t.hole hp with
    hNext := if h : hp.val + 1 < nrHoles then some ⟨hp.val + 1, h⟩ else none }
  holeHead := none
  freeSlots := if h : 0 < nrHoles then some ⟨0, h⟩ else none

/-- `mem_init`. -/
def memInit (mm : Mm) (replies : List (Option SysMem)) (total : UInt32) :
    Except Fault (Mm × UInt32 × UInt32) := do
  let mm := { mm with table := clearTable mm.table }
  let (mm, total, free) ← memInitLoop replies mm total 0
  let swapBase := mm.swapBase + 1
  pure ({ mm with swapBase := swapBase, swapMaxsize := 0 - swapBase }, total, free)

/-- What `swap_on` returns: `EBUSY`, the error of `open`, or nothing, since the function ends
without a return value. -/
inductive SwapOnResult where
  | ebusy
  | openFailed
  | unset
  deriving DecidableEq, Repr

/-- The number of clicks of a swap area of `size` bytes that can be used. -/
def swapClicks (mm : Mm) (size : UInt32) : UInt32 :=
  let size := size >>> UInt32.ofNat clickShift
  if mm.swapMaxsize < size then mm.swapMaxsize else size

/-- The swap file is open as `fd`, at its start, and `swap_offset` is set. -/
def openSwap (mm : Mm) (fd : Int) (offset : UInt32) : Mm :=
  { mm with swapFd := fd, swapOffset := offset, filePos := 0 }

/-- `swap_on`, where `open` returns `fd`. -/
def swapOn (mm : Mm) (fd : Int) (offset size : UInt32) : Except Fault (SwapOnResult × Mm) :=
  if mm.swapFd ≠ -1 then
    pure (.ebusy, mm)
  else if fd < 0 then
    pure (.openFailed, { mm with swapFd := fd })
  else
    let size := mm.swapClicks size
    let mm := mm.openSwap fd offset
    if 0 < size then do
      let mm ← mm.freeMem mm.swapBase size
      pure (.unset, mm)
    else
      pure (.unset, mm)

/-- `*pmp`: a `struct mproc **` is `&in_queue` (`none`) or the address of a link. -/
def link (mm : Mm) : Option (Fin nrProcs) → Option (Fin nrProcs)
  | none => mm.inQueue
  | some i => (mm.mproc i).mpSwapq

/-- `*pmp = p`. -/
def setLink (mm : Mm) (pmp p : Option (Fin nrProcs)) : Mm :=
  match pmp with
  | none => { mm with inQueue := p }
  | some i => mm.setProc i { mm.mproc i with mpSwapq := p }

/-- The loop of `swap_inqueue` that looks for the end of the queue. -/
def queueEnd (mm : Mm) : (fuel : Nat) → (pmp : Option (Fin nrProcs)) →
    Except Fault (Option (Fin nrProcs))
  | 0, pmp => match mm.link pmp with
      | none => pure pmp
      | some _ => throw .endless
  | fuel + 1, pmp => match mm.link pmp with
      | none => pure pmp
      | some i => mm.queueEnd fuel (some i)

/-- `swap_inqueue`. -/
def swapInqueue (mm : Mm) (i : Fin nrProcs) : Except Fault Mm :=
  if (mm.mproc i).mpFlags.swapin then
    pure mm
  else do
    let pmp ← mm.queueEnd nrProcs none
    let mm := mm.setLink pmp (some i)
    let mm := mm.setLink (some i) none
    let rmp := mm.mproc i
    pure (mm.setProc i { rmp with mpFlags := { rmp.mpFlags with swapin := true } })

/-- The last branch of the loop of `swap_in`: the process `i` gets the memory of `size` clicks
at `newBase`, its image is read back, and its swap "memory" is freed. -/
def swapInProc (mm : Mm) (i : Fin nrProcs) (newBase size : UInt32) : Except Fault Mm := do
  let rmp := mm.mproc i
  let oldBase := rmp.segD.memPhys
  let mm := mm.setProc i (rmp.moveTo newBase)
  let mm := mm.lseek (mm.swapFileOff oldBase)
  let mm := mm.readSeg i (size <<< UInt32.ofNat clickShift)
  let mm ← mm.freeMem oldBase size
  let rmp := mm.mproc i
  pure (mm.setProc i { rmp with mpFlags := { rmp.mpFlags with onswap := false, swapin := false } })

/-- The loop of `swap_in` from the link `pmp` on. -/
def swapInLoop : (fuel : Nat) → (mm : Mm) → (pmp : Option (Fin nrProcs)) → Except Fault Mm
  | 0, mm, pmp => match mm.link pmp with
      | none => pure mm
      | some _ => throw .endless
  | fuel + 1, mm, pmp => match mm.link pmp with
      | none => pure mm
      | some i =>
          let size := (mm.mproc i).imageSize
          if !(mm.mproc i).mpFlags.swapin then
            -- Guess it got killed.
            swapInLoop fuel (mm.setLink pmp (mm.mproc i).mpSwapq) pmp
          else do
            let (newBase, mm) ← mm.allocMem size
            if newBase = noMem then
              -- No memory for this one, try the next.
              swapInLoop fuel mm (some i)
            else
              let mm ← mm.swapInProc i newBase size
              swapInLoop fuel (mm.setLink pmp (mm.mproc i).mpSwapq) pmp

/-- `swap_in`. -/
def swapIn (mm : Mm) : Except Fault Mm := swapInLoop nrProcs mm none

/-- What `swap_off` returns: `OK` or `ENOMEM`. -/
inductive SwapOffResult where
  | ok
  | enomem
  deriving DecidableEq, Repr

/-- The slots from `&mproc[LOW_USER]` up to `&mproc[NR_PROCS]`. -/
def userProcs : List (Fin nrProcs) := (List.finRange nrProcs).filter fun i => lowUser ≤ i.val

/-- The first loop of `swap_off`: all swapped out processes go on the queue of `swap_in`. -/
def queueSwapped : (procs : List (Fin nrProcs)) → (mm : Mm) → Except Fault Mm
  | [], mm => pure mm
  | i :: procs, mm => do
      let mm ← if (mm.mproc i).mpFlags.onswap then mm.swapInqueue i else pure mm
      queueSwapped procs mm

/-- `swap_off`. One pass over the hole list takes at most `nrHoles` steps, and each pass but the
last one removes a hole. -/
def swapOff (mm : Mm) : Except Fault (SwapOffResult × Mm) :=
  if mm.swapFd = -1 then
    pure (.ok, mm)
  else do
    let mm ← queueSwapped userProcs mm
    let mm ← mm.swapIn
    if userProcs.any fun i => (mm.mproc i).mpFlags.onswap then
      pure (.enomem, mm)
    else
      let table ← mm.table.removeSwapHole mm.swapBase ((nrHoles + 1) * nrHoles) none
        mm.table.holeHead
      pure (.ok, { mm with table := table, swapFd := -1 })

/-- `do_worst_fit`: the message asks for first fit (0) or worst fit (1). -/
def doWorstFit (mm : Mm) (m1i1 : Int) : Mm :=
  if m1i1 = 0 ∨ m1i1 = 1 then { mm with worstFit := m1i1 } else mm

end Mm

end

end Soi.Pamiec
