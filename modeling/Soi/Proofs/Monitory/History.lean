import Soi.Lib.History
import Soi.Proofs.Monitory.Chat
import Soi.Proofs.Monitory.Classes

/-!
# `Soi.Proofs.Monitory.History`: the calls of the threads take effect one after the other

A call of `send_msg` or `read_msg` takes effect with the step that uses the list (`Chat.event`),
which is between its `enter()` and its `leave()`. `turn_effect` is what a step does to its thread
and to the list. `linearized_of_run` is the result: whatever the interleaving, the events of a run
are a run of the abstract store with two classes and with room for `capacity` messages, and the
events of a thread are its calls, in the order of its program.

`ordered_of_run` is what this says about the messages of one sender. A reader gets the ones of a
class in the order in which they were sent, whoever else sends and reads.
-/

set_option autoImplicit false

namespace Soi.Monitory

open Soi.Lib (Mailbox Classes Event View Effect Linearized history byArrival)

/-- The call of the mailbox. -/
def Call.toLib : Call → Lib.Call Message
  | .sendMsg m => .send m
  | .readMsg => .read

/-- What a thread shows of its calls. -/
def Thread.view : View Thread Message where
  left t := t.left.map Call.toLib
  sent := Thread.sent
  got := Thread.got

/-- The store of two classes, with room for `capacity` messages. -/
def Buffer.abstract (capacity : Nat) : Mailbox Message (Classes Message) :=
  (byArrival Message.isPri).bounded capacity fun c => c.list.length

namespace Chat

variable {ι : Type*}

/-- The call that takes effect in the next step of the thread `i`, if there is one. -/
def event (chat : Chat ι) (i : ι) : Option (Event ι Message) :=
  match (chat.thread i).pc with
  | .body (.sendMsg m) => some (.sent i m)
  | .body .readMsg => chat.buffer.head?.map (.got i)
  | _ => none

/-- The buffer, as a store with room for `capacity` messages. -/
def store (capacity : Nat) : Mailbox Message (List Message) :=
  Buffer.mailbox.bounded capacity List.length

variable {capacity : Nat} {chat chat' : Chat ι} {i : ι}

/-- The steps that do not use the list. -/
theorem event_of_ne (hpc : ∀ call, (chat.thread i).pc ≠ .body call) : chat.event i = none := by
  unfold event
  split
  · rename_i m h
    exact absurd h (hpc (.sendMsg m))
  · rename_i h
    exact absurd h (hpc .readMsg)
  · rfl

/-- A step that uses the list is the event of its call, and the buffer does what the event says. -/
theorem event_of_use {call : Call} {t : Thread} {buffer : List Message}
    (hpc : (chat.thread i).pc = .body call)
    (hroom : ∀ m, call = .sendMsg m → chat.buffer.length < capacity)
    (huse : call.use (chat.thread i) chat.buffer = some (t, buffer)) :
    ∃ e, chat.event i = some e ∧ e.thread = i ∧ e.call = call.toLib ∧
      t.sent = (chat.thread i).sent ++ e.sending.toList ∧
      t.got = (chat.thread i).got ++ e.reading.toList ∧ t.calls = (chat.thread i).calls ∧
      (store capacity).Does (some e) chat.buffer buffer := by
  cases call with
  | sendMsg m =>
      simp only [Call.use, Option.some.injEq, Prod.mk.injEq] at huse
      obtain ⟨rfl, rfl⟩ := huse
      refine ⟨.sent i m, ?_, rfl, rfl, rfl, (List.append_nil _).symm, rfl, ?_⟩
      · simp only [event, hpc]
      -- The monitor has tested `get_size()` before, and the list of the abstract store is bounded.
      · exact Mailbox.bounded_send (hroom m rfl)
  | readMsg =>
      cases hbuffer : chat.buffer with
      | nil =>
          -- Only a list with a message in it has a first node to take.
          rw [hbuffer] at huse
          cases huse
      | cons m rest =>
          simp only [Call.use, hbuffer, Buffer.read, Option.bind_eq_bind, Option.bind_some,
            Option.some.injEq, Prod.mk.injEq] at huse
          obtain ⟨rfl, rfl⟩ := huse
          refine ⟨.got i m, ?_, rfl, rfl, (List.append_nil _).symm, rfl, rfl, rfl⟩
          simp only [event, hpc, hbuffer, List.head?_cons, Option.map_some]

variable [DecidableEq ι]

/-- A step that does not use the list has no effect. -/
theorem effect_of_ne {t : Thread} (hpc : ∀ call, (chat.thread i).pc ≠ .body call)
    (hthread : chat'.thread = Function.update chat.thread i t)
    (hbuffer : chat'.buffer = chat.buffer) (hleft : t.left = (chat.thread i).left)
    (hsent : t.sent = (chat.thread i).sent) (hgot : t.got = (chat.thread i).got) :
    Effect Thread.view (store capacity) (chat.event i) i chat.thread chat'.thread
      chat.buffer chat'.buffer := by
  rw [event_of_ne hpc]
  exact .quiet hthread hbuffer (congrArg (List.map Call.toLib) hleft) hsent hgot

/-- A step that uses the list has the effect of its call. -/
theorem effect_of_use {call : Call} {t : Thread} {buffer : List Message} (pc : Pc)
    (hpc : (chat.thread i).pc = .body call)
    (hroom : ∀ m, call = .sendMsg m → chat.buffer.length < capacity)
    (huse : call.use (chat.thread i) chat.buffer = some (t, buffer))
    (hthread : chat'.thread = Function.update chat.thread i { t with pc })
    (hbuffer : chat'.buffer = buffer) (hleft : ({ t with pc } : Thread).left = t.calls) :
    Effect Thread.view (store capacity) (chat.event i) i chat.thread chat'.thread
      chat.buffer chat'.buffer := by
  obtain ⟨e, he, hown, hcall, hsent, hgot, hcalls, hdoes⟩ := event_of_use hpc hroom huse
  have hbody : (chat.thread i).left = call :: (chat.thread i).calls := by
    unfold Thread.left
    rw [hpc]
  -- The call is no longer one of the calls to come, but it has not taken effect yet.
  rw [he]
  refine .call hown hthread ?_ hsent hgot (hbuffer ▸ hdoes)
  show (chat.thread i).left.map Call.toLib
    = e.call :: ({ t with pc } : Thread).left.map Call.toLib
  rw [hleft, hcalls, hbody, List.map_cons, ← hcall]

omit [DecidableEq ι] in
/-- There is room for a message that is about to be sent. -/
theorem Inv.room_of_body [Fintype ι] (h : Inv capacity chat) {call : Call}
    (hpc : (chat.thread i).pc = .body call) :
    ∀ m, call = .sendMsg m → chat.buffer.length < capacity := by
  rintro m rfl
  have hroom := (h.knows hpc).room_ne
  simp only [room, Call.waitsOn] at hroom
  omega

/-- A step that uses the list is one call of the store, with the result that its thread sees. All
other steps change nothing that a thread shows of its calls. -/
theorem turn_effect [Fintype ι] (h : Inv capacity chat) (hturn : Turn capacity chat i chat') :
    Effect Thread.view (store capacity) (chat.event i) i chat.thread chat'.thread
      chat.buffer chat'.buffer := by
  -- Only `hand` and `done` use the list: the call of a thread with somebody to wake, and without.
  cases hturn with
  | enter hpc hcalls _ =>
      exact effect_of_ne (by simp [hpc]) rfl rfl (by simp [Thread.left, hpc, hcalls]) rfl rfl
  | wait hpc _ => exact effect_of_ne (by simp [hpc]) rfl rfl (by simp [Thread.left, hpc]) rfl rfl
  | pass hpc _ => exact effect_of_ne (by simp [hpc]) rfl rfl (by simp [Thread.left, hpc]) rfl rfl
  | waitLeave hpc =>
      exact effect_of_ne (by simp [hpc]) rfl rfl (by simp [Thread.left, hpc]) rfl rfl
  | waitP hpc _ => exact effect_of_ne (by simp [hpc]) rfl rfl (by simp [Thread.left, hpc]) rfl rfl
  | hand hpc huse _ _ => exact effect_of_use (.signalV _) hpc (h.room_of_body hpc) huse rfl rfl rfl
  | done hpc huse _ => exact effect_of_use (.leave _) hpc (h.room_of_body hpc) huse rfl rfl rfl
  | signalV hpc => exact effect_of_ne (by simp [hpc]) rfl rfl (by simp [Thread.left, hpc]) rfl rfl
  | signalEnter hpc _ =>
      exact effect_of_ne (by simp [hpc]) rfl rfl (by simp [Thread.left, hpc]) rfl rfl
  | leave hpc => exact effect_of_ne (by simp [hpc]) rfl rfl (by simp [Thread.left, hpc]) rfl rfl

/-- What a run does to the list, it does to the two classes. -/
theorem linearized_classes [Fintype ι] (hpos : 0 < capacity) {program : ι → List Call}
    {schedule : List ι}
    (hrun : Lib.Run.schedule (next capacity) (start program) schedule = some chat) :
    ∃ events classes,
      history (next capacity) event (start program) schedule = some (events, chat) ∧
      Linearized Thread.view (Buffer.abstract capacity) events (start program).thread chat.thread
        ⟨[], []⟩ classes ∧ classes.list = chat.buffer := by
  obtain ⟨events, hhistory⟩ : ∃ events,
      history (next capacity) event (start program) schedule = some (events, chat) :=
    Lib.exists_history hrun
  -- First the list itself, then the two classes in its place.
  have hlinear : Linearized Thread.view (store capacity) events (start program).thread chat.thread
      (start program).buffer chat.buffer :=
    Lib.history_linearized (I := Inv capacity)
      (fun s i s' h hnext => turn_inv hpos h (turn_of_next hnext))
      (fun s i s' h hnext => turn_effect h (turn_of_next hnext)) (start_inv program) hhistory
  have hsimulates : (store capacity).Simulates (Buffer.abstract capacity) id
      fun buffer c => c.Sorted Message.isPri ∧ c.list = buffer :=
    Buffer.mailbox_simulates.bounded capacity fun buffer c hR => congrArg List.length hR.2
  obtain ⟨classes, hclasses, -, hlist⟩ :=
    hlinear.simulates hsimulates ⟨Classes.sorted_empty, rfl⟩
  exact ⟨events, classes, hhistory, hclasses, hlist⟩

/-- What the schedule did, as a sequence of calls of the abstract store. -/
structure Explains (capacity : Nat) (program : ι → List Call) (schedule : List ι) (chat : Chat ι)
    (events : List (Event ι Message)) (classes : Classes Message) : Prop where
  /-- The events are those of the schedule, in its order. -/
  steps : history (next capacity) event (start program) schedule = some (events, chat)
  /-- The calls take effect one after the other, with the results that the threads saw. -/
  atomic : (Buffer.abstract capacity).run ⟨[], []⟩ (Lib.calls events)
    = some (Lib.readings events, classes)
  buffer : classes.list = chat.buffer
  /-- The calls of a thread take effect in the order of its program. -/
  program : ∀ i, (program i).map Call.toLib
    = (Lib.eventsOf i events).map Event.call ++ (chat.thread i).left.map Call.toLib
  sent : ∀ i, (chat.thread i).sent = (Lib.eventsOf i events).filterMap Event.sending
  got : ∀ i, (chat.thread i).got = (Lib.eventsOf i events).filterMap Event.reading

/-- Any interleaving of the steps of the threads is a sequence of their calls. -/
theorem linearized_of_run [Fintype ι] (capacity : Nat) (hpos : 0 < capacity)
    (program : ι → List Call) (schedule : List ι) (chat : Chat ι)
    (hrun : Lib.Run.schedule (next capacity) (start program) schedule = some chat) :
    ∃ events classes, Explains capacity program schedule chat events classes := by
  obtain ⟨events, classes, hsteps, hlinear, hbuffer⟩ := linearized_classes hpos hrun
  exact ⟨events, classes, hsteps, hlinear.atomic, hbuffer, hlinear.program,
    fun i => hlinear.sent i, fun i => hlinear.got i⟩

/-- What the threads got, when the message says who sent it. -/
structure Ordered (who : Message → ι) (program : ι → List Call) (chat : Chat ι) : Prop where
  /-- Two messages of a class from one sender reach a reader in the order in which they were
  sent. -/
  pri : ∀ i j, (((chat.thread j).got.filter Message.isPri).filter fun m => who m = i).Sublist
    ((chat.thread i).sent.filter Message.isPri)
  regular : ∀ i j,
    (((chat.thread j).got.filter fun m => !m.isPri).filter fun m => who m = i).Sublist
      ((chat.thread i).sent.filter fun m => !m.isPri)
  /-- The only reader gets them without a gap, up to the ones that are still in the list. -/
  only_pri : ∀ j, (∀ k, k ≠ j → reads (program k) = 0) → ∀ i,
    (((chat.thread j).got ++ chat.buffer).filter Message.isPri).filter (fun m => who m = i)
      = (chat.thread i).sent.filter Message.isPri
  only_regular : ∀ j, (∀ k, k ≠ j → reads (program k) = 0) → ∀ i,
    (((chat.thread j).got ++ chat.buffer).filter fun m => !m.isPri).filter (fun m => who m = i)
      = (chat.thread i).sent.filter fun m => !m.isPri

omit [DecidableEq ι] in
/-- A thread whose program has no call of `read_msg`. -/
theorem read_not_mem {calls : List Call} (h : reads calls = 0) :
    Lib.Call.read ∉ calls.map Call.toLib := by
  intro hmem
  obtain ⟨call, hcall, heq⟩ := List.mem_map.mp hmem
  have hne := List.countP_eq_zero.mp h call hcall
  cases call with
  | sendMsg m => cases heq
  | readMsg => exact hne rfl

omit [DecidableEq ι] in
/-- A call of `send` for the mailbox comes from a call of `send_msg` with the same message. -/
theorem send_mem {calls : List Call} {m : Message} (h : Lib.Call.send m ∈ calls.map Call.toLib) :
    .sendMsg m ∈ calls := by
  obtain ⟨call, hcall, heq⟩ := List.mem_map.mp h
  cases call with
  | sendMsg m' =>
      obtain rfl := Lib.Call.send.inj heq
      exact hcall
  | readMsg => cases heq

/-- No interleaving changes the order of the messages of one sender and one class. -/
theorem ordered_of_run [Fintype ι] (capacity : Nat) (hpos : 0 < capacity)
    (program : ι → List Call) (who : Message → ι)
    (hwho : ∀ i m, .sendMsg m ∈ program i → who m = i) (schedule : List ι) (chat : Chat ι)
    (hrun : Lib.Run.schedule (next capacity) (start program) schedule = some chat) :
    Ordered who program chat := by
  obtain ⟨events, classes, -, hlinear, hbuffer⟩ := linearized_classes hpos hrun
  -- The order of the messages does not depend on the bound, so that it can go.
  obtain ⟨classes, hlinear, rfl⟩ := hlinear.simulates (R := Eq)
    (Mailbox.bounded_simulates (byArrival Message.isPri) capacity fun c => c.list.length) rfl
  have hsend : ∀ i m, .send m ∈ Thread.view.left ((start program).thread i) → who m = i :=
    fun i m hm => hwho i m (send_mem hm)
  have hnew : ∀ i, Thread.view.sent ((start program).thread i) = [] := fun i => rfl
  have hread : ∀ i, Thread.view.got ((start program).thread i) = [] := fun i => rfl
  constructor
  · exact hlinear.reader hsend hnew hread (Or.inl rfl)
  · exact hlinear.reader hsend hnew hread (Or.inr rfl)
  · intro j honly
    rw [← hbuffer]
    exact hlinear.reader_only hsend hnew hread (Or.inl rfl)
      fun k hk => read_not_mem (honly k hk)
  · intro j honly
    rw [← hbuffer]
    exact hlinear.reader_only hsend hnew hread (Or.inr rfl)
      fun k hk => read_not_mem (honly k hk)

end Chat

/-- The reader comes first, but the message that it waits for takes effect first. -/
def tinyRead : Chat Bool :=
  (Lib.Run.schedule (Chat.next 1) (Chat.start tinyProgram) (tinySchedule ++ [true])).getD
    (Chat.start tinyProgram)

/-- The reader started first and got the message of the user: the call of the user took effect
before its own. -/
theorem linearized_of_run_tiny : (tinyRead.thread true).got = (tinyRead.thread false).sent ∧
    ∃ events classes,
      Chat.Explains 1 tinyProgram (tinySchedule ++ [true]) tinyRead events classes :=
  ⟨by decide, Chat.linearized_of_run 1 (by decide) tinyProgram _ tinyRead rfl⟩

/-- Two users send two messages each, and a third one reads. -/
def talkProgram : Fin 3 → List Call
  | 0 => [.sendMsg ⟨"a", 0, 0⟩, .sendMsg ⟨"b", 0, 0⟩]
  | 1 => [.sendMsg ⟨"c", 0, 1⟩, .sendMsg ⟨"d", 1, 1⟩]
  | 2 => reader 3

/-- The users take turns, and then three messages are read. Only the last one of the second user has
priority. -/
def talkSchedule : List (Fin 3) :=
  List.replicate 4 0 ++ List.replicate 4 1 ++ List.replicate 4 0 ++ List.replicate 4 1 ++
    List.replicate 12 2

def talkRead : Chat (Fin 3) :=
  (Lib.Run.schedule (Chat.next 4) (Chat.start talkProgram) talkSchedule).getD
    (Chat.start talkProgram)

/-- The message of priority comes first. The two of the first user keep their order, with one of
them still in the list, and the other one of the second user comes in between. -/
theorem ordered_of_run_talk :
    (talkRead.thread 2).got = [⟨"d", 1, 1⟩, ⟨"a", 0, 0⟩, ⟨"c", 0, 1⟩] ∧
      talkRead.buffer = [⟨"b", 0, 0⟩] ∧
      Chat.Ordered (fun m => if m.source = 0 then 0 else 1) talkProgram talkRead := by
  refine ⟨rfl, rfl, Chat.ordered_of_run 4 (by decide) talkProgram _ ?_ talkSchedule talkRead rfl⟩
  intro i m hm
  match i, hm with
  | 0, hm =>
      rcases List.mem_pair.mp hm with h | h <;> cases h <;> rfl
  | 1, hm =>
      rcases List.mem_pair.mp hm with h | h <;> cases h <;> rfl
  | 2, hm => simp [talkProgram, reader] at hm

end Soi.Monitory
