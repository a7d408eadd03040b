import Soi.Lib.Ring
import Soi.Semafory.Queue

/-!
# `Soi.Proofs.Semafory.Queue`: the queue is a list in a ring

`Queue.Valid` is the invariant of the ring, and `contents` is the list in it. `send_msg` puts a
message of priority at the front of the list and any other one at its back, and `read_msg` takes
the front (`sendMsg_spec`, `readMsg_spec`). The entry that `send_msg` writes is not an entry of
the list (`sendSlot_free`).
-/

set_option autoImplicit false

namespace Soi.Semafory.Queue

open Soi.Lib

/-- The indices are in the table, and `tail` is behind the last message. -/
structure Valid (n : Nat) (q : Queue) : Prop where
  head_nonneg : 0 ≤ q.head
  head_lt : q.head < n
  tail_nonneg : 0 ≤ q.tail
  tail_lt : q.tail < n
  size_nonneg : 0 ≤ q.size
  size_le : q.size ≤ n
  tail_eq : q.tail ≡ q.head + q.size [ZMOD n]

/-- The unread messages, the next one first. -/
def contents (n : Nat) (q : Queue) : List Message := ringList n q.table q.head q.size.toNat

variable {n : Nat} {q : Queue}

/-- The index of C goes back to 0 behind the last entry. -/
theorem tmod_eq_slot {i : Int} (h : 0 ≤ i) : (i + 1).tmod n = slot n i 1 :=
  Int.tmod_eq_emod_of_nonneg (by omega)

/-- In a valid queue `tail` is the slot behind the last message. -/
theorem Valid.tail_slot (h : q.Valid n) : q.tail = slot n q.head q.size.toNat := by
  have heq : q.tail % n = (q.head + q.size) % n := h.tail_eq
  rw [Int.emod_eq_of_lt h.tail_nonneg h.tail_lt] at heq
  rw [heq, slot, Int.toNat_of_nonneg h.size_nonneg]

/-- The entry in front of `head` is in the table, and `head` follows it. -/
theorem Valid.beforeHead (h : q.Valid n) : 0 ≤ q.beforeHead n ∧ q.beforeHead n < n ∧
    slot n (q.beforeHead n) 1 = q.head := by
  have h0 := h.head_nonneg
  have hlt := h.head_lt
  rw [Queue.beforeHead]
  split_ifs with hneg
  · -- In front of the first entry is the last one.
    refine ⟨by omega, by omega, ?_⟩
    show ((n : Int) - 1 + 1) % n = q.head
    rw [Int.sub_add_cancel, Int.emod_self]
    omega
  · refine ⟨by omega, by omega, ?_⟩
    show (q.head - 1 + 1) % n = q.head
    rw [Int.sub_add_cancel, Int.emod_eq_of_lt h0 hlt]

/-- An empty queue is valid, whatever is in its table. -/
theorem queueInit_valid (hn : 0 < n) (q : Queue) : q.queueInit.Valid n := by
  refine ⟨?_, ?_, ?_, ?_, ?_, ?_, rfl⟩ <;> simp only [queueInit] <;> omega

/-- The queue is empty after `queue_init`. -/
theorem contents_queueInit (q : Queue) : q.queueInit.contents n = [] := rfl

/-- A message of priority goes to the front. -/
theorem sendMsg_front (h : q.Valid n) (hsize : q.size < n) {m : Message} (hpri : m.pri = 1) :
    (q.sendMsg n m).Valid n ∧ (q.sendMsg n m).contents n = m :: q.contents n := by
  have hnonneg := h.size_nonneg
  have hlen : (q.size + 1).toNat = q.size.toNat + 1 := Int.toNat_add_nat hnonneg 1
  have hnonneg' : 0 ≤ q.size + 1 := by omega
  have hle' : q.size + 1 ≤ n := by omega
  obtain ⟨h0, hlt, hnext⟩ := h.beforeHead
  have heq : q.sendMsg n m = { q with
      head := q.beforeHead n
      table := Function.update q.table (q.beforeHead n) m
      size := q.size + 1 } := by
    rw [sendMsg, if_pos hpri]
  rw [heq]
  -- `head` goes back by one and the size grows by one, so `tail` stays in place.
  refine ⟨⟨h0, hlt, h.tail_nonneg, h.tail_lt, hnonneg', hle', ?_⟩, ?_⟩
  · show q.tail ≡ q.beforeHead n + (q.size + 1) [ZMOD n]
    rw [Int.add_comm q.size, ← Int.add_assoc]
    refine h.tail_eq.trans (Int.ModEq.add_right _ ?_)
    rw [← hnext]
    exact Int.mod_modEq _ _
  · show ringList n _ (q.beforeHead n) (q.size + 1).toNat = _
    rw [hlen]
    exact ringList_front m (by omega) h0 hlt hnext

/-- Any other message goes to the back. -/
theorem sendMsg_back (h : q.Valid n) (hsize : q.size < n) {m : Message} (hpri : m.pri ≠ 1) :
    (q.sendMsg n m).Valid n ∧ (q.sendMsg n m).contents n = q.contents n ++ [m] := by
  have hnonneg := h.size_nonneg
  have hlen : (q.size + 1).toNat = q.size.toNat + 1 := Int.toNat_add_nat hnonneg 1
  have hnonneg' : 0 ≤ q.size + 1 := by omega
  have hle' : q.size + 1 ≤ n := by omega
  have htail : (q.tail + 1).tmod n = slot n q.tail 1 := tmod_eq_slot h.tail_nonneg
  have heq : q.sendMsg n m = { q with
      table := Function.update q.table q.tail m
      tail := slot n q.tail 1
      size := q.size + 1 } := by
    rw [sendMsg, if_neg hpri, htail]
  rw [heq]
  -- `tail` is the entry behind the last message, and it moves on with the size.
  refine ⟨⟨h.head_nonneg, h.head_lt, slot_nonneg (by omega), slot_lt (by omega), hnonneg', hle',
    ?_⟩, ?_⟩
  · show slot n q.tail 1 ≡ q.head + (q.size + 1) [ZMOD n]
    rw [← Int.add_assoc]
    exact (Int.mod_modEq _ _).trans (h.tail_eq.add_right 1)
  · show ringList n (Function.update q.table q.tail m) q.head (q.size + 1).toNat = _
    rw [hlen, h.tail_slot]
    exact ringList_back m (by omega)

/-- `send_msg` makes the queue one message longer, at either end. -/
theorem size_sendMsg (m : Message) : (q.sendMsg n m).size = q.size + 1 := by
  rw [sendMsg]
  split_ifs
  · rfl
  · rfl

/-- `send_msg` on a queue that is not full. -/
theorem sendMsg_spec (h : q.Valid n) (hsize : q.size < n) (m : Message) :
    (q.sendMsg n m).Valid n ∧ (q.sendMsg n m).contents n
      = if m.pri = 1 then m :: q.contents n else q.contents n ++ [m] := by
  by_cases hpri : m.pri = 1
  · rw [if_pos hpri]
    exact sendMsg_front h hsize hpri
  · rw [if_neg hpri]
    exact sendMsg_back h hsize hpri

/-- The entry that `send_msg` writes is not one of an unread message. -/
theorem sendSlot_free (h : q.Valid n) (hsize : q.size < n) (m : Message) :
    ∀ k < q.size.toNat, slot n q.head k ≠ q.sendSlot n m := by
  intro k hk heq
  have hnonneg := h.size_nonneg
  rw [sendSlot] at heq
  split_ifs at heq
  · obtain ⟨h0, hlt, hnext⟩ := h.beforeHead
    -- From the entry in front of `head` it is one step more to each message.
    have hslot : slot n (q.beforeHead n) (k + 1) = slot n (q.beforeHead n) 0 := by
      rw [← slot_succ, hnext, heq, slot_zero h0 hlt]
    have := slot_inj (by omega) (by omega) hslot
    omega
  · -- Two different positions of at most `n` messages are two different entries.
    rw [h.tail_slot] at heq
    have := slot_inj (by omega) (by omega) heq
    omega

/-- `send_msg` writes one entry. -/
theorem table_sendMsg (m : Message) :
    (q.sendMsg n m).table = Function.update q.table (q.sendSlot n m) m := by
  rw [sendMsg, sendSlot]
  split_ifs
  · rfl
  · rfl

/-- `read_msg` on a queue that is not empty. -/
theorem readMsg_spec (h : q.Valid n) (hsize : 0 < q.size) :
    (q.readMsg n).2.Valid n ∧
      q.contents n = (q.readMsg n).1 :: (q.readMsg n).2.contents n := by
  have hle := h.size_le
  have hn : 0 < n := by omega
  have hhead := tmod_eq_slot (n := n) h.head_nonneg
  refine ⟨⟨?_, ?_, h.tail_nonneg, h.tail_lt, ?_, ?_, ?_⟩, ?_⟩
  · show 0 ≤ (q.head + 1).tmod n
    rw [hhead]
    exact slot_nonneg hn
  · show (q.head + 1).tmod n < n
    rw [hhead]
    exact slot_lt hn
  · show 0 ≤ q.size - 1
    omega
  · show q.size - 1 ≤ n
    omega
  · show q.tail ≡ (q.head + 1).tmod n + (q.size - 1) [ZMOD n]
    rw [hhead]
    -- `head` moves on and the size shrinks, so the sum is the same.
    have hmod : q.head + 1 + (q.size - 1) ≡ slot n q.head 1 + (q.size - 1) [ZMOD n] :=
      (Int.mod_modEq _ _).symm.add_right _
    have hsum : q.head + 1 + (q.size - 1) = q.head + q.size := by omega
    exact h.tail_eq.trans (hsum ▸ hmod)
  · have hlen : q.size.toNat = (q.size - 1).toNat + 1 := by omega
    show ringList n q.table q.head q.size.toNat
      = q.table q.head :: ringList n q.table ((q.head + 1).tmod n) (q.size - 1).toNat
    rw [hlen, ringList_cons, slot_zero h.head_nonneg h.head_lt, hhead]

end Soi.Semafory.Queue
