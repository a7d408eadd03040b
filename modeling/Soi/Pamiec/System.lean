import Mathlib.Algebra.BigOperators.Group.Finset.Basic
import Mathlib.Logic.Relation
import Soi.Lib.Extent
import Soi.Pamiec.Alloc

/-!
# `Soi.Pamiec.System`: runs of the memory manager

`alloc.c` is a part of MM. The rest of MM calls its functions and keeps the ranges it got from
`alloc_mem`. `Sys` is the state of the memory manager with this bookkeeping. The three fields
besides `mm` record what the callers know, and no function of `alloc.c` reads them:

* `live`: the processes with an image in memory or on swap;
* `blocks`: the allocated ranges that are no process image;
* `areas`: the ranges given to the hole list so far, that is the chunks of memory and the swap
  area.

`Sys.Step` is one call, with what the caller promises: a range that is freed is allocated, and
a process that is moved is live. `Sys.Reaches` is a run. `Booted` is a state after `mem_init`.
`BlockStep` and `BlockRun` are the calls and runs that allocate and free whole blocks, without
swapping, from any state.
-/

set_option autoImplicit false

namespace Soi.Pamiec

open Soi.Lib

/-- The range of a call with a base and a number of clicks. -/
def range (base clicks : UInt32) : Extent := ⟨base.toNat, clicks.toNat⟩

section
variable [MmConfig]

namespace Mm

/-- The clicks of the image of the process `p`, in memory or in the swap "memory". -/
def image (mm : Mm) (p : Fin nrProcs) : Extent :=
  range (mm.mproc p).segD.memPhys (mm.mproc p).imageSize

/-- The number of images of the processes in `live` that contain the click `x`. -/
def held (mm : Mm) (live : Finset (Fin nrProcs)) (x : Nat) : Nat :=
  ∑ p ∈ live, if x ∈ mm.image p then 1 else 0

/-- The call that leads from `mm` to `mm'` only moved processes of `live`: a process that is
swapped out or in gets other flags. -/
def Moves (mm mm' : Mm) (live : Finset (Fin nrProcs)) : Prop :=
  ∀ p, (mm'.mproc p).mpFlags ≠ (mm.mproc p).mpFlags → p ∈ live

/-- The processes that `alloc.c` may move are live: the candidates of `swap_out`, and the
processes on the queue of `swap_in`. -/
def Movable (mm : Mm) (live : Finset (Fin nrProcs)) : Prop :=
  ∀ p, (mm.mproc p).mpFlags.swappable ∨ (mm.mproc p).mpFlags.swapin → p ∈ live

/-- The area that `swap_on` adds to the hole list. -/
def swapArea (mm : Mm) (fd : Int) (size : UInt32) : List Extent :=
  if mm.swapFd = -1 ∧ 0 ≤ fd ∧ mm.swapClicks size ≠ 0 then
    [range mm.swapBase (mm.swapClicks size)]
  else
    []

end Mm

/-- The memory manager and what its callers know. -/
structure Sys where
  mm : Mm
  live : Finset (Fin nrProcs)
  blocks : List Extent
  areas : List Extent

namespace Sys

/-- One call of the memory manager. -/
inductive Step : Sys → Sys → Prop
  /-- `alloc_mem`: the caller keeps the block when it gets one. -/
  | allocMem {s : Sys} {clicks b : UInt32} {mm' : Mm}
      (hok : s.mm.allocMem clicks = .ok (b, mm')) (hmoves : s.mm.Moves mm' s.live) :
      Step s { s with
        mm := mm'
        blocks := if b = noMem then s.blocks else range b clicks :: s.blocks }
  /-- `free_mem` of an allocated range: a block, a part of one or several of them. -/
  | freeMem {s : Sys} {base clicks : UInt32} {mm' : Mm}
      (howned : ∀ x ∈ range base clicks, 0 < cover s.blocks x)
      (hok : s.mm.freeMem base clicks = .ok mm') :
      Step s { s with
        mm := mm'
        blocks := s.blocks.flatMap fun e => e.diff (range base clicks) }
  /-- A live process dies: MM frees its image, and the slot is not in use any more. -/
  | exit {s : Sys} {p : Fin nrProcs} {mm' : Mm} (hp : p ∈ s.live)
      (hok : s.mm.freeMem (s.mm.mproc p).segD.memPhys (s.mm.mproc p).imageSize = .ok mm') :
      Step s { s with
        mm := mm'.setProc p { mm'.mproc p with mpFlags := MpFlags.none }
        live := s.live.erase p }
  /-- A block becomes the image of a new process. -/
  | fork {s : Sys} {p : Fin nrProcs} {e : Extent} {segD segS : MemMap} (hp : p ∉ s.live)
      (he : e ∈ s.blocks)
      (himage : (s.mm.setProc p { s.mm.mproc p with segD, segS, mpFlags := .none }).image p = e) :
      Step s { s with
        mm := s.mm.setProc p { s.mm.mproc p with segD, segS, mpFlags := .none }
        live := insert p s.live
        blocks := s.blocks.erase e }
  /-- A live process calls the system or returns from a call. -/
  | setFlags {s : Sys} {p : Fin nrProcs} {f : MpFlags} (hp : p ∈ s.live)
      (honswap : f.onswap = (s.mm.mproc p).mpFlags.onswap)
      (hswapin : f.swapin = (s.mm.mproc p).mpFlags.swapin) :
      Step s { s with mm := s.mm.setProc p { s.mm.mproc p with mpFlags := f } }
  /-- `swap_inqueue` of a process on swap. -/
  | swapInqueue {s : Sys} {p : Fin nrProcs} {mm' : Mm} (hp : p ∈ s.live)
      (honswap : (s.mm.mproc p).mpFlags.onswap) (hok : s.mm.swapInqueue p = .ok mm') :
      Step s { s with mm := mm' }
  /-- `swap_in`. -/
  | swapIn {s : Sys} {mm' : Mm} (hmovable : s.mm.Movable s.live) (hok : s.mm.swapIn = .ok mm') :
      Step s { s with mm := mm' }
  /-- `swap_on`. -/
  | swapOn {s : Sys} {fd : Int} {offset size : UInt32} {r : Mm.SwapOnResult} {mm' : Mm}
      (hok : s.mm.swapOn fd offset size = .ok (r, mm')) :
      Step s { s with mm := mm', areas := s.areas ++ s.mm.swapArea fd size }
  /-- `do_worst_fit`. -/
  | doWorstFit {s : Sys} (m1i1 : Int) : Step s { s with mm := s.mm.doWorstFit m1i1 }

/-- A run: any number of calls. -/
def Reaches : Sys → Sys → Prop := Relation.ReflTransGen Step

end Sys

/-- One call on a block as a whole, with the list of the blocks obtained so far. A process that
is swapped out gets another flag, so that nothing is swapped while the process table stays. -/
inductive BlockStep : Mm × List Extent → Mm × List Extent → Prop
  | allocMem {mm mm' : Mm} {blocks : List Extent} {clicks b : UInt32} (hclicks : clicks ≠ 0)
      (hok : mm.allocMem clicks = .ok (b, mm')) (hb : b ≠ noMem)
      (hmproc : mm'.mproc = mm.mproc) :
      BlockStep (mm, blocks) (mm', range b clicks :: blocks)
  | freeMem {mm mm' : Mm} {blocks : List Extent} {base clicks : UInt32}
      (hblock : range base clicks ∈ blocks) (hok : mm.freeMem base clicks = .ok mm') :
      BlockStep (mm, blocks) (mm', blocks.erase (range base clicks))
  | doWorstFit {mm : Mm} {blocks : List Extent} (m1i1 : Int) :
      BlockStep (mm, blocks) (mm.doWorstFit m1i1, blocks)

/-- A run of such calls. -/
def BlockRun : Mm × List Extent → Mm × List Extent → Prop := Relation.ReflTransGen BlockStep

/-- The chunks of memory that the kernel reports: not empty, not at address 0, not across the
end of the address space, disjoint, and not more than the table has entries. -/
structure Chunks (chunks : List SysMem) : Prop where
  size_ne : ∀ r ∈ chunks, r.size ≠ 0
  base_ne : ∀ r ∈ chunks, r.base ≠ 0
  stop_lt : ∀ r ∈ chunks, r.base.toNat + r.size.toNat < 2 ^ 32
  disjoint : chunks.Pairwise fun r s => ∀ x, x ∈ range r.base r.size → x ∉ range s.base s.size
  length_le : chunks.length ≤ nrHoles

/-- The state right after `mem_init` over these chunks. `swap_base` and `swap_fd` had their
initial values before, and the other variables and the process table are arbitrary. Nothing is
allocated. -/
def Booted (chunks : List SysMem) (s : Sys) : Prop :=
  ∃ (mm₀ : Mm) (total : UInt32) (free : UInt32 × UInt32),
    mm₀.swapBase = 0 ∧ mm₀.swapFd = -1 ∧
    mm₀.memInit (chunks.map some) total = .ok (s.mm, free) ∧
    s.live = ∅ ∧ s.blocks = [] ∧ s.areas = chunks.map fun r => range r.base r.size

end

end Soi.Pamiec
