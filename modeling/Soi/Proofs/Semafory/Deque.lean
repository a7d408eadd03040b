import Soi.Lib.Mailbox
import Soi.Proofs.Semafory.Queue

/-!
# `Soi.Proofs.Semafory.Deque`: the queue under any sequence of calls

`mailbox n` is the queue of `n` messages with the calls that the semaphores let through: a message
is sent when `size` is below `n`, and one is read when it is above 0. `mailbox_simulates` and
`deque_simulates_mailbox` relate it to the bounded list `Lib.deque`, call by call and in both
directions. `ring_is_deque` is the result for all sequences of calls after `queue_init`.
-/

set_option autoImplicit false

namespace Soi.Semafory

open Soi.Lib

/-- `m.pri == 1`. -/
def Message.isPri (m : Message) : Bool := m.pri == 1

/-- The test of `send_msg` on the priority. -/
theorem Message.isPri_iff {m : Message} : m.isPri = true ↔ m.pri = 1 := by
  simp [isPri]

namespace Queue

variable {n : Nat} {q : Queue}

/-- The calls of `send_msg` that find `size < BUFFER_SIZE`, and those of `read_msg` that find
`size > 0`. -/
def mailbox (n : Nat) : Mailbox Message Queue where
  send m q := if q.size < n then some (q.sendMsg n m) else none
  read q := if 0 < q.size then some (q.readMsg n) else none

/-- A valid queue contains as many messages as `size` says. -/
theorem length_contents (h : q.Valid n) : ((q.contents n).length : Int) = q.size := by
  have hnonneg := h.size_nonneg
  simp only [contents, ringList, List.length_map, List.length_range]
  omega

/-- The contents after a message was sent. -/
theorem contents_sendMsg (h : q.Valid n) (hsize : q.size < n) (m : Message) :
    (q.sendMsg n m).contents n
      = if m.isPri then m :: q.contents n else q.contents n ++ [m] := by
  rw [(sendMsg_spec h hsize m).2]
  simp only [Message.isPri_iff]

/-- What the queue does, the list of its contents does. -/
theorem mailbox_simulates (n : Nat) : (mailbox n).Simulates (deque Message.isPri n) id
    fun q l => q.Valid n ∧ q.contents n = l where
  send m q q' l := by
    rintro ⟨h, rfl⟩ hsend
    simp only [mailbox] at hsend
    split at hsend
    · rename_i hsize
      obtain rfl := Option.some.inj hsend
      have hroom : (q.contents n).length < n := by
        have := length_contents h
        omega
      refine ⟨(q.sendMsg n m).contents n, ?_, (sendMsg_spec h hsize m).1, rfl⟩
      show (if (q.contents n).length < n then _ else none) = _
      rw [if_pos hroom, contents_sendMsg h hsize m]
      rfl
    · cases hsend
  read m q q' l := by
    rintro ⟨h, rfl⟩ hread
    simp only [mailbox] at hread
    split at hread
    · rename_i hsize
      obtain ⟨rfl, rfl⟩ := Prod.mk.inj (Option.some.inj hread)
      obtain ⟨hvalid, hcontents⟩ := readMsg_spec h hsize
      refine ⟨(q.readMsg n).2.contents n, ?_, hvalid, rfl⟩
      rw [hcontents]
      rfl
    · cases hread

/-- What the list does, the queue does. -/
theorem deque_simulates_mailbox (n : Nat) : (deque Message.isPri n).Simulates (mailbox n) id
    fun l q => q.Valid n ∧ q.contents n = l where
  send m l l' q := by
    rintro ⟨h, rfl⟩ hsend
    have hlen := length_contents h
    simp only [deque] at hsend
    split at hsend
    · obtain rfl := Option.some.inj hsend
      have hsize : q.size < n := by omega
      exact ⟨q.sendMsg n m, if_pos hsize, (sendMsg_spec h hsize m).1,
        contents_sendMsg h hsize m⟩
    · cases hsend
  read m l l' q := by
    rintro ⟨h, hl⟩ hread
    have hlen := length_contents h
    cases l with
    | nil => cases hread
    | cons x l =>
        obtain ⟨rfl, rfl⟩ := Prod.mk.inj (Option.some.inj hread)
        have hsize : 0 < q.size := by
          rw [hl, List.length_cons] at hlen
          omega
        obtain ⟨hvalid, hcontents⟩ := readMsg_spec h hsize
        obtain ⟨hm, hrest⟩ := List.cons.inj (hcontents.symm.trans hl)
        refine ⟨(q.readMsg n).2, ?_, hvalid, hrest⟩
        show (if 0 < q.size then some (q.readMsg n) else none) = _
        rw [if_pos hsize, ← hm]
        rfl

/-- After `queue_init` the queue is empty. -/
theorem queueInit_related (hn : 0 < n) (q : Queue) :
    q.queueInit.Valid n ∧ q.queueInit.contents n = [] :=
  ⟨queueInit_valid hn q, contents_queueInit q⟩

end Queue

/-- A new queue of `n` messages, and any calls of `send_msg` and `read_msg`. As long as no call
finds the queue full or empty, the indices are in the table, the list from `head` on has `size`
messages, and it is what a bounded list would contain that got the same calls and delivered the
same messages. The bounded list allows the same sequences of calls. -/
theorem ring_is_deque (n : Nat) (hn : 0 < n) (q : Queue) (calls : List (Call Message)) :
    (∀ got q', (Queue.mailbox n).run q.queueInit calls = some (got, q') →
      q'.Valid n ∧ ((q'.contents n).length : Int) = q'.size ∧
        (deque Message.isPri n).run [] calls = some (got, q'.contents n)) ∧
    ∀ got l, (deque Message.isPri n).run [] calls = some (got, l) →
      ∃ q', (Queue.mailbox n).run q.queueInit calls = some (got, q') ∧ q'.contents n = l := by
  constructor
  · intro got q' hrun
    obtain ⟨l, hdeque, hvalid, rfl⟩ :=
      (Queue.mailbox_simulates n).run_same (Queue.queueInit_related hn q) hrun
    exact ⟨hvalid, Queue.length_contents hvalid, hdeque⟩
  · intro got l hrun
    obtain ⟨q', hqueue, -, hl⟩ :=
      (Queue.deque_simulates_mailbox n).run_same (Queue.queueInit_related hn q) hrun
    exact ⟨q', hqueue, hl⟩

/-- A message of priority overtakes another one, in a queue of two messages. -/
theorem ring_is_deque_tiny : ∃ l,
    (deque Message.isPri 2).run [] [.send ⟨0, 0, 'r'⟩, .send ⟨1, 1, 'R'⟩, .read]
      = some ([⟨1, 1, 'R'⟩], l) :=
  ⟨_, ((ring_is_deque 2 (by decide) ⟨fun _ => ⟨0, 0, ' '⟩, 0, 0, 0⟩
    [.send ⟨0, 0, 'r'⟩, .send ⟨1, 1, 'R'⟩, .read]).1 [⟨1, 1, 'R'⟩] _ rfl).2.2⟩

end Soi.Semafory
