import Mathlib.Data.Int.ModEq

/-!
# `Soi.Lib.Ring`: a list in a ring of table entries

The list has its first element in the entry `head` of a table of `n` entries, and goes on in the
next ones, from the last entry back to the first one. `slot n head k` is the entry of the `k`-th
element, and `ringList` is the list.

The first `n` slots are different entries (`slot_inj`), so that a list that is not full grows at
its back (`ringList_back`) and at its front (`ringList_front`) without a write to a live entry. It
shrinks at the front when `head` moves on (`ringList_cons`).
-/

set_option autoImplicit false

namespace Soi.Lib

/-- The table entry of the `k`-th element. -/
def slot (n : Nat) (head : Int) (k : Nat) : Int := (head + k) % n

/-- The first `size` elements. -/
def ringList {α : Type*} (n : Nat) (table : Int → α) (head : Int) (size : Nat) : List α :=
  (List.range size).map fun k => table (slot n head k)

section
variable {α : Type*} {n : Nat} {table table' : Int → α} {head : Int} {size k l : Nat}

/-- An index of the ring is not negative, also when `head` is. -/
theorem slot_nonneg (hn : 0 < n) : 0 ≤ slot n head k :=
  Int.emod_nonneg _ (by omega)

/-- An index of the ring is in the table. -/
theorem slot_lt (hn : 0 < n) : slot n head k < n :=
  Int.emod_lt_of_pos _ (by omega)

/-- An entry is its own first slot. -/
theorem slot_zero (h0 : 0 ≤ head) (hlt : head < n) : slot n head 0 = head := by
  show (head + 0) % n = head
  rw [Int.add_zero, Int.emod_eq_of_lt h0 hlt]

/-- The ring from the next slot on is the ring without its first slot. -/
theorem slot_succ (n : Nat) (head : Int) (k : Nat) :
    slot n (slot n head 1) k = slot n head (k + 1) := by
  show ((head + 1) % n + k) % n = (head + (k + 1)) % n
  rw [Int.emod_add_emod, Int.add_assoc, Int.add_comm 1]

/-- Different elements of a list of at most `n` are in different entries. -/
theorem slot_inj (hk : k < n) (hl : l < n) (h : slot n head k = slot n head l) : k = l := by
  have hmod : (k : Int) ≡ l [ZMOD n] := Int.ModEq.add_left_cancel' head h
  have heq : (k : Int) % n = l % n := hmod
  rw [Int.emod_eq_of_lt (by omega) (by omega), Int.emod_eq_of_lt (by omega) (by omega)] at heq
  exact Int.ofNat.inj heq

/-- The list depends on its own entries only. -/
theorem ringList_congr (h : ∀ k < size, table' (slot n head k) = table (slot n head k)) :
    ringList n table' head size = ringList n table head size :=
  List.map_congr_left fun k hk => h k (List.mem_range.mp hk)

/-- A ring with one more entry has this entry at its end. -/
theorem ringList_concat : ringList n table head (size + 1)
    = ringList n table head size ++ [table (slot n head size)] := by
  rw [ringList, List.range_succ, List.map_append]
  rfl

/-- The first element, and the list from the next entry on. -/
theorem ringList_cons : ringList n table head (size + 1)
    = table (slot n head 0) :: ringList n table (slot n head 1) size := by
  rw [ringList, List.range_succ_eq_map, List.map_cons, List.map_map]
  refine congrArg _ (List.map_congr_left fun k _ => ?_)
  show table (slot n head (k + 1)) = table (slot n (slot n head 1) k)
  rw [slot_succ]

/-- A new last element. -/
theorem ringList_back (x : α) (hsize : size < n) :
    ringList n (Function.update table (slot n head size) x) head (size + 1)
      = ringList n table head size ++ [x] := by
  rw [ringList_concat, Function.update_self]
  refine congrArg (· ++ [x]) (ringList_congr fun k hk => Function.update_of_ne ?_ _ _)
  intro heq
  have := slot_inj (by omega) hsize heq
  omega

/-- A new first element. -/
theorem ringList_front {head' : Int} (x : α) (hsize : size < n) (h0 : 0 ≤ head')
    (hlt : head' < n) (hhead : slot n head' 1 = head) :
    ringList n (Function.update table head' x) head' (size + 1)
      = x :: ringList n table head size := by
  rw [ringList_cons, slot_zero h0 hlt, Function.update_self, hhead]
  refine congrArg (x :: ·) (ringList_congr fun k hk => Function.update_of_ne ?_ _ _)
  intro heq
  have hslot : slot n head' (k + 1) = slot n head' 0 := by
    rw [← slot_succ, hhead, heq, slot_zero h0 hlt]
  have := slot_inj (by omega) (by omega) hslot
  omega

end

end Soi.Lib
