import Soi.Lib.Cycle
import Soi.Proofs.Pamiec.Calls

/-!
# `Soi.Proofs.Pamiec.SwapScan`: the slots that `swap_out` looks at

`rmp` goes from slot to slot and from the last one back to `LOW_USER`. So the slots of user
processes are a cycle, and from any of them `nextProc_iterate` is the slot `k` steps later. The loop
of `swap_out` is the search around this cycle (`swapOut_eq`): it looks at each slot of a user
process once, and at the one in `outswap` last.
-/

set_option autoImplicit false

namespace Soi.Pamiec

open Soi.Lib

namespace Mm

section
variable [MmConfig] {mm mm' : Mm} {o : Fin nrProcs}

/-- The number of slots of user processes. -/
def userSlots : Nat := nrProcs - lowUser

/-- There is a slot for a user. -/
theorem userSlots_pos : 0 < userSlots :=
  Nat.sub_pos_of_lt MmConfig.lowUser_lt

/-- The next slot, counted from the first one of the users. Behind the last slot comes the first one
again. -/
theorem nextProc_val (ho : lowUser ≤ o.val) :
    (nextProc o).val = lowUser + (o.val - lowUser + 1) % userSlots := by
  have hlow := MmConfig.lowUser_lt
  have hlt := o.isLt
  rw [nextProc]
  split_ifs with hlast
  · rw [Nat.mod_eq_of_lt (by rw [userSlots]; omega)]
    show o.val + 1 = _
    omega
  · have hwrap : o.val - lowUser + 1 = userSlots := by
      rw [userSlots]
      omega
    rw [hwrap, Nat.mod_self]
    rfl

/-- The slot `k` steps behind `o`. -/
theorem nextProc_iterate (ho : lowUser ≤ o.val) (k : Nat) :
    (nextProc^[k] o).val = lowUser + (o.val - lowUser + k) % userSlots := by
  induction k with
  | zero =>
      have := o.isLt
      rw [Nat.add_zero, Nat.mod_eq_of_lt (by rw [userSlots]; omega)]
      show o.val = _
      omega
  | succ k ih =>
      rw [Function.iterate_succ_apply', nextProc_val (by omega), ih, Nat.add_sub_cancel_left,
        Nat.mod_add_mod]
      rfl

/-- The slots of user processes are a cycle. -/
theorem onCycle_nextProc (ho : lowUser ≤ o.val) : OnCycle nextProc o userSlots where
  pos := userSlots_pos
  back := by
    have hlt := o.isLt
    refine Fin.ext ?_
    rw [nextProc_iterate ho, Nat.add_mod_right, Nat.mod_eq_of_lt (by rw [userSlots]; omega)]
    omega
  first k hk hlt := by
    intro hback
    have hval := congrArg Fin.val hback
    rw [nextProc_iterate ho] at hval
    have hmod : (o.val - lowUser + k) % userSlots = o.val - lowUser := by omega
    have hlen : o.val - lowUser < userSlots := by
      have := o.isLt
      rw [userSlots]
      omega
    -- Fewer than all steps do not lead back, with or without the step from the last slot.
    by_cases hwrap : o.val - lowUser + k < userSlots
    · rw [Nat.mod_eq_of_lt hwrap] at hmod
      omega
    · rw [Nat.mod_eq_sub_mod (by omega), Nat.mod_eq_of_lt (by omega)] at hmod
      omega

/-- A round from a slot of a user on visits all slots of the users, and no others. -/
theorem mem_around_nextProc (ho : lowUser ≤ o.val) {i : Fin nrProcs} :
    i ∈ around nextProc o userSlots ↔ lowUser ≤ i.val := by
  rw [mem_around]
  constructor
  · rintro ⟨k, -, rfl⟩
    rw [nextProc_iterate ho]
    exact Nat.le_add_right _ _
  · intro hi
    have hio := o.isLt
    have hii := i.isLt
    by_cases hlt : o.val < i.val
    · refine ⟨i.val - o.val - 1, by rw [userSlots]; omega, Fin.ext ?_⟩
      rw [nextProc_iterate ho, Nat.mod_eq_of_lt (by rw [userSlots]; omega)]
      omega
    · -- The slot is on the other side of the last one.
      have hsteps : i.val + userSlots - o.val - 1 + 1 = i.val + userSlots - o.val := by
        rw [userSlots]
        omega
      refine ⟨i.val + userSlots - o.val - 1, by rw [userSlots]; omega, Fin.ext ?_⟩
      have hsum : o.val - lowUser + (i.val + userSlots - o.val) = i.val - lowUser + userSlots := by
        rw [userSlots]
        omega
      rw [nextProc_iterate ho, hsteps, hsum, Nat.add_mod_right,
        Nat.mod_eq_of_lt (by rw [userSlots]; omega)]
      omega

/-- The loop of `swap_out` is a search on the cycle of the slots. -/
theorem swapOutLoop_eq (fuel : Nat) (i : Fin nrProcs) :
    mm.swapOutLoop fuel i = search nextProc mm.swapOutProc mm.outswap .endless fuel i := by
  induction fuel generalizing i with
  | zero => rfl
  | succ fuel ih =>
      rw [swapOutLoop, search]
      cases mm.swapOutProc (nextProc i) with
      | error e => rfl
      | ok r =>
          cases r with
          | some mm' => rfl
          | none =>
              show (if _ then _ else _) = if _ then _ else _
              rw [ih]
              rfl

/-- `swap_out` looks at each slot of a user process once. -/
theorem swapOut_eq (ho : lowUser ≤ mm.outswap.val) :
    mm.swapOut = tryEach mm.swapOutProc (around nextProc mm.outswap userSlots) := by
  rw [swapOut, swapOutLoop_eq]
  exact (onCycle_nextProc ho).search_eq (Nat.sub_le _ _)

end

end Mm

end Soi.Pamiec
