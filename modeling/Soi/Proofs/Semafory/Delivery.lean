import Soi.Proofs.Monitory.Classes
import Soi.Proofs.Semafory.Deque

/-!
# `Soi.Proofs.Semafory.Delivery`: the order of the messages in the two chats

The queue of `czacik.c` puts a message of priority in front of `head`, where the next `read_msg`
finds it. So `read_msg` returns the message of priority that was sent last, and `queue_delivers`
states that the queue is `Lib.latestFirst`. The list of `chat.cpp` is `Lib.byArrival`.

The two chats deliver the same messages when no `read_msg` finds two messages of priority
(`InOrder.of_readsOne`), and `queue_reverses` is a sequence of calls where they do not.
-/

set_option autoImplicit false

namespace Soi.Semafory

open Soi.Lib

/-- The message as `chat.cpp` stores it: its text is the one character. -/
def Message.toBuffer (m : Message) : Monitory.Message := ⟨String.singleton m.m, m.pri, m.source⟩

/-- The message keeps its priority in the buffer of the monitor. -/
theorem Message.isPri_toBuffer (m : Message) : m.toBuffer.isPri = m.isPri := rfl

/-- The calls deliver the messages of priority in the order in which they were sent, the other
ones as well, and the monitor delivers the same sequence. -/
structure InOrder (calls : List (Call Message)) (got : List Message) : Prop where
  pri : got.filter Message.isPri <+: (sends calls).filter Message.isPri
  other : got.filter (fun m => !m.isPri) <+: (sends calls).filter fun m => !m.isPri
  monitor : ∃ buffer, Monitory.Buffer.mailbox.run [] (calls.map (Call.map Message.toBuffer))
    = some (got.map Message.toBuffer, buffer)

/-- The contents `c` of the queue `q` after some calls that delivered `got`: a stack of the
messages of priority, and the other ones in the order of arrival. -/
structure Stacked (n : Nat) (calls : List (Call Message)) (got : List Message) (q : Queue)
    (c : Classes Message) : Prop where
  run : (latestFirst Message.isPri).run ⟨[], []⟩ calls = some (got, c)
  contents : q.contents n = c.list
  first_pri : ∀ m ∈ c.first, m.pri = 1
  rest_pri : ∀ m ∈ c.rest, m.pri ≠ 1
  rest_order : (sends calls).filter (fun m => !m.isPri)
    = got.filter (fun m => !m.isPri) ++ c.rest
  /-- The next message is the latest one of priority, or the oldest of the other ones when there
  is none of priority. -/
  next : 0 < q.size → some (q.readMsg n).1 = c.first.head?.or c.rest.head?

/-- The two classes of `chat.cpp` for the messages of `czacik.c`. -/
theorem byArrival_simulates_buffer :
    (byArrival Message.isPri).Simulates Monitory.Buffer.mailbox Message.toBuffer
      fun c buffer => c.Sorted Message.isPri ∧ buffer = c.list.map Message.toBuffer where
  send m c c' buffer := by
    rintro ⟨h, rfl⟩ hsend
    have hsorted := h.of_send (fun m l => List.perm_append_singleton m l) hsend
    obtain rfl := Option.some.inj hsend
    refine ⟨_, rfl, hsorted, ?_⟩
    by_cases hm : m.isPri = true
    · -- The classes of the buffer are the ones of the queue, message by message.
      have hclasses : (⟨c.first.map Message.toBuffer, c.rest.map Message.toBuffer⟩ :
          Classes Monitory.Message).Sorted Monitory.Message.isPri :=
        ⟨by simpa [Message.isPri_toBuffer] using h.first,
          by simpa [Message.isPri_toBuffer] using h.rest⟩
      have hlist : c.list.map Message.toBuffer
          = (⟨c.first.map Message.toBuffer, c.rest.map Message.toBuffer⟩ :
            Classes Monitory.Message).list := by
        simp [Classes.list]
      have hpri : m.toBuffer.isPri = true := hm
      rw [hlist, Monitory.Buffer.send_pri hclasses hpri]
      simp [Classes.list, hm]
    · have hother : m.toBuffer.isPri = false := Bool.eq_false_iff.mpr hm
      rw [Monitory.Buffer.send_other _ hother]
      simp [Classes.list, hm]
  read m c c' buffer := by
    rintro ⟨h, rfl⟩ hread
    rw [Classes.list_of_read hread]
    exact ⟨_, rfl, h.of_read hread, rfl⟩

/-- When no `read_msg` finds two messages of priority, the order is the one of arrival. -/
theorem InOrder.of_readsOne {calls : List (Call Message)} {got : List Message}
    {c : Classes Message} (hone : ReadsOne Message.isPri 0 calls)
    (hrun : (latestFirst Message.isPri).run ⟨[], []⟩ calls = some (got, c)) :
    InOrder calls got := by
  obtain ⟨d, harrival, -⟩ := hone.byArrival (c := ⟨[], []⟩) (d := ⟨[], []⟩) rfl rfl hrun
  have hfirst := byArrival_first Classes.sorted_empty harrival
  have hrest := (twoClass_rest (fun m l => List.perm_append_singleton m l)
    Classes.sorted_empty harrival).2
  obtain ⟨buffer, hbuffer, -⟩ :=
    byArrival_simulates_buffer.run (t := []) ⟨Classes.sorted_empty, rfl⟩ harrival
  exact ⟨⟨d.first, hfirst.symm⟩, ⟨d.rest, hrest.symm⟩, buffer, hbuffer⟩

/-- A new queue of `n` messages, and any calls of `send_msg` and `read_msg` that do not find it full
or empty. The messages of priority come out latest first, before the other ones, and the other ones
in the order in which they were sent. When no `read_msg` finds two messages of priority, all
messages are in this order, as in the chat with the monitor. -/
theorem queue_delivers (n : Nat) (hn : 0 < n) (q : Queue) (calls : List (Call Message))
    (got : List Message) (q' : Queue)
    (hrun : (Queue.mailbox n).run q.queueInit calls = some (got, q')) :
    (∃ c, Stacked n calls got q' c) ∧ (ReadsOne Message.isPri 0 calls → InOrder calls got) := by
  obtain ⟨l, hdeque, hvalid, rfl⟩ :=
    (Queue.mailbox_simulates n).run_same (Queue.queueInit_related hn q) hrun
  obtain ⟨c, hstack, hlist⟩ :=
    (deque_simulates Message.isPri n).run_same (t := ⟨[], []⟩) rfl hdeque
  obtain ⟨hsorted, hrest⟩ :=
    twoClass_rest (fun m l => List.Perm.refl _) Classes.sorted_empty hstack
  refine ⟨⟨c, hstack, hlist.symm, ?_, ?_, hrest, ?_⟩, fun hone => .of_readsOne hone hstack⟩
  · exact fun m hm => Message.isPri_iff.mp (hsorted.first m hm)
  · exact fun m hm => by simpa [Message.isPri] using hsorted.rest m hm
  · intro hsize
    have hhead : c.list.head? = some (q'.readMsg n).1 := by
      rw [hlist, (Queue.readMsg_spec hvalid hsize).2]
      rfl
    rw [← hhead]
    show (c.first ++ c.rest).head? = c.first.head?.or c.rest.head?
    exact List.head?_append

/-- `user_A` sends two letters, and then both are read: the second one comes first. -/
theorem queue_reverses :
    ∃ q', (Queue.mailbox 6).run (Queue.queueInit ⟨fun _ => ⟨0, 0, ' '⟩, 0, 0, 0⟩)
        [.send ⟨1, 1, 'R'⟩, .send ⟨1, 1, 'O'⟩, .read, .read]
      = some ([⟨1, 1, 'O'⟩, ⟨1, 1, 'R'⟩], q') ∧
    ¬ InOrder [.send ⟨1, 1, 'R'⟩, .send ⟨1, 1, 'O'⟩, .read, .read]
      [⟨1, 1, 'O'⟩, ⟨1, 1, 'R'⟩] := by
  refine ⟨_, rfl, ?_⟩
  intro h
  exact absurd h.pri (by decide)

/-- Another letter of `user_A` after the first one was read. -/
theorem queue_delivers_tiny :
    InOrder [.send ⟨0, 0, 'r'⟩, .send ⟨1, 1, 'R'⟩, .read, .send ⟨1, 1, 'O'⟩, .read]
      [⟨1, 1, 'R'⟩, ⟨1, 1, 'O'⟩] :=
  (queue_delivers 6 (by decide) ⟨fun _ => ⟨0, 0, ' '⟩, 0, 0, 0⟩
    [.send ⟨0, 0, 'r'⟩, .send ⟨1, 1, 'R'⟩, .read, .send ⟨1, 1, 'O'⟩, .read]
    [⟨1, 1, 'R'⟩, ⟨1, 1, 'O'⟩] _ rfl).2 (by simp [ReadsOne, Message.isPri])

end Soi.Semafory
