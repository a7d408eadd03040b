import Soi.Monitory.Buffer

/-!
# `Soi.Proofs.Monitory.Buffer`: `send_msg` inserts at a node of the list

The loops of `chat.cpp` count, and the counter is the position of the node: `findLast` counts all
messages, and `findNextPri` those of priority. So `send` inserts the message at a node of the list,
and it keeps all others.
-/

set_option autoImplicit false

namespace Soi.Monitory.Buffer

variable {buffer : List Message}

/-- The loop counts up from its start value. -/
theorem countLoop_eq (counts : Message → Bool) (counter : Nat) (buffer : List Message) :
    countLoop counts counter buffer = counter + buffer.countP counts := by
  -- Induction on the nodes still ahead, with the counter as a parameter.
  induction buffer generalizing counter with
  | nil => rfl
  | cons x buffer ih =>
      rw [countLoop, ih, List.countP_cons]
      split_ifs <;> omega

/-- `get_size` counts all nodes. -/
@[simp] theorem getSize_eq (buffer : List Message) : getSize buffer = buffer.length := by
  rw [getSize, countLoop_eq, Nat.zero_add, List.countP_eq_length.mpr fun _ _ => rfl]

/-- A node that `n` messages end at is the `n`-th one. -/
@[simp] theorem nodeAt_eq (n : Nat) : nodeAt n = n := by
  have hiter : ∀ k i : Nat, (· + 1)^[k] i = i + k := by
    intro k
    induction k with
    | zero => exact fun i => rfl
    | succ k ih =>
        intro i
        rw [Function.iterate_succ_apply, ih]
        omega
  rw [nodeAt, hiter]
  split_ifs with h
  · exact h.symm
  · rw [begin]
    omega

/-- `find_next_pri` is the number of the messages of priority. When they are in front, this is the
node of the last one of them. -/
theorem findNextPri_eq (buffer : List Message) :
    findNextPri buffer = buffer.countP fun x => x.pri == 1 := by
  rw [findNextPri, nodeAt_eq, countLoop_eq, Nat.zero_add]

/-- `find_last` is the node at the end of the list. -/
theorem findLast_eq (buffer : List Message) : findLast buffer = buffer.length := by
  rw [findLast, nodeAt_eq]
  exact getSize_eq buffer

/-- An insertion adds the message and keeps the others, at any node. -/
theorem insertAfter_perm (i : Nat) (m : Message) (buffer : List Message) :
    (insertAfter i m buffer).Perm (m :: buffer) := by
  have hperm : (insertAfter i m buffer).Perm (m :: (buffer.take i ++ buffer.drop i)) :=
    List.perm_middle
  rwa [List.take_append_drop] at hperm

/-- `send_msg` adds the message and keeps the others, in both of its branches. -/
theorem send_perm (m : Message) (buffer : List Message) :
    (send m buffer).Perm (m :: buffer) := by
  rw [send]
  split_ifs
  · exact insertAfter_perm _ m buffer
  · exact insertAfter_perm _ m buffer

/-- The list gets one message longer. -/
@[simp] theorem length_send (m : Message) (buffer : List Message) :
    (send m buffer).length = buffer.length + 1 :=
  (send_perm m buffer).length_eq

end Soi.Monitory.Buffer
