import Soi.Lib.History
import Soi.Proofs.Semafory.Czacik
import Soi.Proofs.Semafory.Deque

/-!
# `Soi.Proofs.Semafory.History`: the letters in every interleaving of `czacik.c`

A message takes effect with the step that calls `send_msg` or `read_msg` (`Chat.event`), which is
between `down(mutex)` and `up(mutex)`. The semaphores have counted for it, so that the queue is the
bounded list of `Soi.Lib.Mailbox` in every run of the processes (`linearized_deque`).

`letters_of_reaches` is what this says about the letters. Those of `user_B` are read in the order of
the name, whatever `user_A` sends in between. Those of `user_A` are a stack while they are in the
queue.
-/

set_option autoImplicit false

namespace Soi.Semafory

open Soi.Lib (Mailbox Classes Event View Effect Linearized history deque latestFirst)

/-- The call of the mailbox. -/
def Op.toLib : Op → Lib.Call Message
  | .send m => .send m
  | .read => .read

/-- The operations of which the queue has not seen the call yet. -/
def Process.left (p : Process) : List Op :=
  match p.pc with
  | .downMutex op => op :: p.ops
  | .body op => op :: p.ops
  | _ => p.ops

/-- What a process shows of its calls. -/
def Process.view : View Process Message where
  left p := p.left.map Op.toLib
  sent := Process.sent
  got := Process.got

namespace Chat

variable {ι : Type*}

/-- The call that takes effect in the next step of the process `i`, if there is one. -/
def event (n : Nat) (chat : Chat ι) (i : ι) : Option (Event ι Message) :=
  match (chat.proc i).pc with
  | .body (.send m) => some (.sent i m)
  | .body .read => some (.got i (chat.queue.readMsg n).1)
  | _ => none

variable [DecidableEq ι] {n : Nat} {chat chat' : Chat ι} {i : ι} {program : ι → List Op}
  {q : Queue}

omit [DecidableEq ι] in
/-- The steps that do not use the queue. -/
theorem event_of_ne (hpc : ∀ op, (chat.proc i).pc ≠ .body op) : chat.event n i = none := by
  unfold event
  split
  · rename_i m h
    exact absurd h (hpc (.send m))
  · rename_i h
    exact absurd h (hpc .read)
  · rfl

/-- What a step does to its process and to the queue. -/
theorem turn_effect [Fintype ι] (h : Inv n chat) (hturn : Turn n chat i chat') :
    Effect Process.view (Queue.mailbox n) (chat.event n i) i chat.proc chat'.proc
      chat.queue chat'.queue := by
  cases hturn with
  | take hpc hops hsem =>
      rw [event_of_ne (by simp [hpc])]
      refine .quiet rfl rfl ?_ rfl rfl
      simp [Process.view, Process.left, hpc, hops]
  | downMutex hpc hmutex =>
      rw [event_of_ne (by simp [hpc])]
      refine .quiet rfl rfl ?_ rfl rfl
      simp [Process.view, Process.left, hpc]
  | upMutex hpc =>
      rw [event_of_ne (by simp [hpc])]
      refine .quiet rfl rfl ?_ rfl rfl
      simp [Process.view, Process.left, hpc]
  | give hpc =>
      rw [event_of_ne (by simp [hpc])]
      refine .quiet rfl rfl ?_ rfl rfl
      simp [Process.view, Process.left, hpc]
  | @body op hpc =>
      -- The process took a unit of the queue before `down(mutex)`.
      have hunits := h.units_pos hpc
      have hleft : (chat.proc i).left = op :: (chat.proc i).ops := by
        unfold Process.left
        rw [hpc]
      cases op with
      | send m =>
          -- It was a unit of `empty`, so that there is a place in the queue.
          have hsize : chat.queue.size < n := by
            simp only [Op.takes, Queue.units] at hunits
            omega
          have hevent : chat.event n i = some (.sent i m) := by simp only [event, hpc]
          rw [hevent]
          refine .call rfl rfl ?_ rfl (List.append_nil _).symm (if_pos hsize)
          exact congrArg (List.map Op.toLib) hleft
      | read =>
          have hevent : chat.event n i = some (.got i (chat.queue.readMsg n).1) := by
            simp only [event, hpc]
          rw [hevent]
          refine .call rfl rfl ?_ (List.append_nil _).symm rfl (if_pos hunits)
          exact congrArg (List.map Op.toLib) hleft

/-- What a run does to the queue, it does to the bounded list. -/
theorem linearized_deque [Fintype ι] (hn : 0 < n) {schedule : List ι}
    (hrun : Lib.Run.schedule (next n) (start n q program) schedule = some chat) :
    ∃ events,
      history (next n) (event n) (start n q program) schedule = some (events, chat) ∧
      Linearized Process.view (deque Message.isPri n) events (start n q program).proc chat.proc
        [] (chat.queue.contents n) := by
  obtain ⟨events, hhistory⟩ : ∃ events,
      history (next n) (event n) (start n q program) schedule = some (events, chat) :=
    Lib.exists_history hrun
  have hlinear : Linearized Process.view (Queue.mailbox n) events (start n q program).proc
      chat.proc (start n q program).queue chat.queue :=
    Lib.history_linearized (I := Inv n)
      (fun s i s' h hnext => turn_inv h (turn_of_next hnext))
      (fun s i s' h hnext => turn_effect h (turn_of_next hnext)) (start_inv hn q program) hhistory
  obtain ⟨l, hl, -, rfl⟩ :=
    hlinear.simulates (Queue.mailbox_simulates n) (Queue.queueInit_related hn q)
  exact ⟨events, hhistory, hl⟩

/-- What the schedule did, as a sequence of calls of the bounded list. -/
structure Explains (n : Nat) (q : Queue) (program : ι → List Op) (schedule : List ι)
    (chat : Chat ι) (events : List (Event ι Message)) : Prop where
  /-- The events are those of the schedule, in its order. -/
  steps : history (next n) (event n) (start n q program) schedule = some (events, chat)
  /-- The calls take effect one after the other, with the results that the processes saw. -/
  atomic : (deque Message.isPri n).run [] (Lib.calls events)
    = some (Lib.readings events, chat.queue.contents n)
  /-- The calls of a process take effect in the order of its program. -/
  program : ∀ i, (program i).map Op.toLib
    = (Lib.eventsOf i events).map Event.call ++ (chat.proc i).left.map Op.toLib
  sent : ∀ i, (chat.proc i).sent = (Lib.eventsOf i events).filterMap Event.sending
  got : ∀ i, (chat.proc i).got = (Lib.eventsOf i events).filterMap Event.reading

/-- Any interleaving of the steps of the processes is a sequence of their calls. -/
theorem explains_of_run [Fintype ι] (n : Nat) (hn : 0 < n) (q : Queue) (program : ι → List Op)
    (schedule : List ι) (chat : Chat ι)
    (hrun : Lib.Run.schedule (next n) (start n q program) schedule = some chat) :
    ∃ events, Explains n q program schedule chat events := by
  obtain ⟨events, hsteps, hlinear⟩ := linearized_deque hn hrun
  exact ⟨events, hsteps, hlinear.atomic, hlinear.program, fun i => hlinear.sent i,
    fun i => hlinear.got i⟩

end Chat

/-! ### The letters -/

/-- The first letters of a name that is written again and again. -/
def letters (name : List Char) (k : Nat) : List Char :=
  (List.range k).map fun i => name.getD (i % 6) ' '

/-- The first letters of a name do not depend on how many follow. -/
theorem letters_take (name : List Char) {j k : Nat} (h : j ≤ k) :
    (letters name k).take j = letters name j := by
  rw [letters, ← List.map_take, List.take_range, Nat.min_eq_left h]
  rfl

/-- A part of the letters of a name, from the first one on, is the first letters of it. -/
theorem letters_of_prefix {name : List Char} {k : Nat} {l : List Char}
    (h : l <+: letters name k) : l = letters name l.length := by
  have hle : l.length ≤ k := by simpa [letters] using h.length_le
  rw [← letters_take name hle]
  exact List.prefix_iff_eq_take.mp h

/-- A user sends the letters of its name, each in a message of its own. -/
theorem toLib_sendingUser (pri source : Int) (name : List Char) (input : Nat) :
    (sendingUser pri source name input).map Op.toLib
      = ((List.range input).map fun i => ⟨pri, source, name.getD (i % 6) ' '⟩).map
          Lib.Call.send := by
  rw [sendingUser, List.map_map, List.map_map]
  rfl

/-- The reader reads `input` times. -/
theorem toLib_reader (input : Nat) :
    (reader input).map Op.toLib = List.replicate input Lib.Call.read :=
  List.map_replicate

/-- The messages of a user are the letters of its name. -/
theorem letters_sendingUser (pri source : Int) (name : List Char) (input : Nat) :
    (Lib.sends ((sendingUser pri source name input).map Op.toLib)).map Message.m
      = letters name input := by
  rw [toLib_sendingUser, Lib.sends_map_send, List.map_map]
  rfl

/-- The user that sends such a message. -/
def Message.user (m : Message) : User := if m.isPri then .userA else .userB

/-- A message of a program tells whose program it is, since only `user_A` sends with priority. -/
theorem user_of_mem {A B read : Nat} {i : User} {m : Message}
    (h : Lib.Call.send m ∈ (users A B read i).map Op.toLib) : m.user = i := by
  obtain ⟨op, hop, heq⟩ := List.mem_map.mp h
  cases i with
  | reader =>
      obtain ⟨-, rfl⟩ := List.mem_replicate.mp hop
      cases heq
  | _ =>
      obtain ⟨k, -, rfl⟩ := List.mem_map.mp hop
      obtain rfl := Lib.Call.send.inj heq
      rfl

/-- Only the program of the reader has calls of `read`. -/
theorem reader_of_mem {A B read : Nat} {i : User}
    (h : Lib.Call.read ∈ (users A B read i).map Op.toLib) : i = .reader := by
  obtain ⟨op, hop, heq⟩ := List.mem_map.mp h
  cases i with
  | reader => rfl
  | _ =>
      obtain ⟨k, -, rfl⟩ := List.mem_map.mp hop
      cases heq

/-- The messages of the user A are those of priority. -/
theorem user_eq_userA : (fun m : Message => decide (m.user = .userA)) = Message.isPri := by
  funext m
  unfold Message.user
  cases m.isPri <;> rfl

/-- The messages of the user B are those without priority. -/
theorem user_eq_userB :
    (fun m : Message => decide (m.user = .userB)) = fun m => !m.isPri := by
  funext m
  unfold Message.user
  cases m.isPri <;> rfl

section
variable {n A B read : Nat} {q : Queue} {chat : Chat User} {events : List (Event User Message)}
  {τ : Type*} {box : Mailbox Message τ} {s t : τ}

/-- A user is known by the priority of its messages. -/
theorem sent_of_user (h : Linearized Process.view box events
    (Chat.start n q (users A B read)).proc chat.proc s t) (i : User) :
    (Lib.sends (Lib.calls events)).filter (fun m => m.user = i) = (chat.proc i).sent := by
  -- Only `user_A` sends with priority, so that the message tells its sender.
  have hthread : ∀ e ∈ events, ∀ m, e.sending = some m → m.user = e.thread := by
    intro e he m hm
    cases e with
    | sent k x =>
        obtain rfl := Option.some.inj hm
        exact user_of_mem (h.mem_left he)
    | got k x => cases hm
  rw [Lib.sends_of_thread i hthread]
  exact (h.sent i).symm

/-- Only the reader reads. -/
theorem got_of_reader (h : Linearized Process.view box events
    (Chat.start n q (users A B read)).proc chat.proc s t) :
    Lib.readings events = (chat.proc .reader).got := by
  rw [← h.readings_of fun k hk hread => hk (reader_of_mem hread)]
  exact (h.got .reader).symm

/-- A user has sent the first letters of its name. -/
theorem sent_letters (h : Linearized Process.view box events
    (Chat.start n q (users A B read)).proc chat.proc s t) {i : User} {pri source : Int}
    {name : List Char} {input : Nat} (hi : users A B read i = sendingUser pri source name input) :
    (chat.proc i).sent.map Message.m <+: letters name input := by
  have hleft := h.sent_left (i := i) rfl
  have hprogram : Process.view.left ((Chat.start n q (users A B read)).proc i)
      = (sendingUser pri source name input).map Op.toLib := congrArg (List.map Op.toLib) hi
  rw [hprogram] at hleft
  rw [← letters_sendingUser pri source name input, ← hleft, List.map_append]
  exact List.prefix_append _ _

end

/-- What the two users have sent, what the reader has read, and what is still in the queue. -/
structure Letters (n : Nat) (chat : Chat User) : Prop where
  /-- A user sends the letters of its name. -/
  sent_a : (chat.proc .userA).sent.map Message.m
    = letters ['R', 'O', 'B', 'E', 'R', 'T'] (chat.proc .userA).sent.length
  sent_b : (chat.proc .userB).sent.map Message.m
    = letters ['r', 'o', 'b', 'e', 'r', 't'] (chat.proc .userB).sent.length
  /-- Those of the user B are read in this order, whatever comes in between. -/
  read_b : ((chat.proc .reader).got.filter fun m => !m.isPri).map Message.m
    = letters ['r', 'o', 'b', 'e', 'r', 't']
      ((chat.proc .reader).got.filter fun m => !m.isPri).length
  /-- In the queue the letters of the user A are in front, the latest one first. -/
  queue : ∃ stack rest, chat.queue.contents n = stack ++ rest ∧
    stack.Sublist (chat.proc .userA).sent.reverse ∧
    ((chat.proc .reader).got.filter Message.isPri ++ stack).Perm (chat.proc .userA).sent ∧
    (chat.proc .reader).got.filter (fun m => !m.isPri) ++ rest = (chat.proc .userB).sent

/-- `user_A`, `user_B` and `reader` with any numbers of messages, in any order of their steps, over
a queue of any size. -/
theorem letters_of_run (n : Nat) (hn : 0 < n) (q : Queue) (A B read : Nat) (schedule : List User)
    (chat : Chat User)
    (hrun : Lib.Run.schedule (Chat.next n) (Chat.start n q (users A B read)) schedule
      = some chat) :
    Letters n chat := by
  obtain ⟨events, -, hlinear⟩ := Chat.linearized_deque hn hrun
  -- The front of the queue is a stack.
  obtain ⟨c, hstack, hlist⟩ : ∃ c : Classes Message,
      Linearized Process.view (latestFirst Message.isPri) events
        (Chat.start n q (users A B read)).proc chat.proc ⟨[], []⟩ c ∧
        c.list = chat.queue.contents n :=
    hlinear.simulates (Lib.deque_simulates Message.isPri n) rfl
  have hsentA := sent_of_user hlinear .userA
  have hsentB := sent_of_user hlinear .userB
  rw [user_eq_userA] at hsentA
  rw [user_eq_userB] at hsentB
  have hcalls := hstack.atomic
  rw [got_of_reader hlinear] at hcalls
  obtain ⟨hsublist, hperm⟩ := Lib.latestFirst_first Classes.sorted_empty hcalls
  have hrest := (Lib.twoClass_rest (fun m l => List.Perm.refl _) Classes.sorted_empty hcalls).2
  rw [hsentA, List.append_nil] at hsublist hperm
  rw [hsentB, List.nil_append] at hrest
  -- The letters of `user_B` were sent in the order of the name, and they are read in this order.
  have hb : (chat.proc .userB).sent.map Message.m <+: letters _ B := sent_letters hlinear rfl
  constructor
  · simpa using letters_of_prefix (sent_letters (i := .userA) hlinear rfl)
  · simpa using letters_of_prefix hb
  · rw [hrest, List.map_append] at hb
    simpa using letters_of_prefix ((List.prefix_append _ _).trans hb)
  · exact ⟨c.first, c.rest, hlist.symm, hsublist, hperm.trans (List.reverse_perm _), hrest.symm⟩

/-- The user B sends two letters, the user A one, and the reader gets two. -/
def tinySchedule : List User :=
  List.replicate 10 .userB ++ List.replicate 5 .userA ++ List.replicate 10 .reader

def tinyRead : Chat User :=
  (Lib.Run.schedule (Chat.next 3) (Chat.start 3 tinyQueue (users 1 2 2)) tinySchedule).getD
    (Chat.start 3 tinyQueue (users 1 2 2))

/-- The letter of the user A was sent last and is read first. -/
theorem explains_of_run_tiny : (tinyRead.proc .reader).got = [⟨1, 1, 'R'⟩, ⟨0, 0, 'r'⟩] ∧
    ∃ events, Chat.Explains 3 tinyQueue (users 1 2 2) tinySchedule tinyRead events :=
  ⟨by decide, Chat.explains_of_run 3 (by decide) tinyQueue _ tinySchedule tinyRead rfl⟩

/-- The letters that were sent and read in this run. -/
theorem letters_of_run_tiny : Letters 3 tinyRead :=
  letters_of_run 3 (by decide) tinyQueue 1 2 2 tinySchedule tinyRead rfl

end Soi.Semafory
