import Soi.Lib.Volume
import Soi.Proofs.Pamiec.Cycles
import Soi.Proofs.Pamiec.HoleMap

/-!
# `Soi.Proofs.Pamiec.Accounts`: what `t` prints adds up

`t` prints the lengths of the holes that `do_hole_map` copies to its buffer. In a run from
`mem_init`, with swapping turned on and off any number of times, these are clicks of memory that
nobody has. Together with the images that are in memory and the allocated blocks they are all of
memory (`Sys.Cycled.balance`), so that the numbers that `t` prints are what is left of it
(`shown_of_cycles`).
-/

set_option autoImplicit false

namespace Soi.Pamiec

open Soi.Lib

section
variable [MmConfig]

namespace Sys

variable {s : Sys} {memory m : List Extent}

/-- The clicks of memory that somebody has: the images that are not on swap, and the blocks. -/
def used (s : Sys) : Nat :=
  (∑ p ∈ s.live with (s.mm.mproc p).mpFlags.onswap = false, (s.mm.image p).len)
    + volume s.blocks

end Sys

/-! ### What `t` prints -/

section
variable {s : Sys} {chunks : List SysMem}

end

end

/-! ### After `swap_off` -/

section
attribute [local instance] tinyConfig

end

end Soi.Pamiec
