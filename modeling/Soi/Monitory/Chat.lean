import Mathlib.Data.Fintype.Basic
import Mathlib.Logic.Relation
import Soi.Monitory.Buffer

/-!
# `Soi.Monitory.Chat`: threads in the monitor of `monitor.h` and `chat.cpp`

`Buffer` is a `Monitor` with the conditions `full` and `empty`. Each thread makes a list of calls
of `send_msg` and `read_msg`. A call is cut at the operations `p` and `v` on the semaphores of
`Monitor` and `Condition`, so that one step is one such operation or the code between two of
them. `Pc` names the place of a thread in its call:

* `idle → test → body → leave → idle` when nobody has to wait;
* `test → waitLeave → waitP → body` is `wait`;
* `body → signalV → signalEnter → leave` is a `signal` with a thread that waits.

The code is POSIX, where `sem_wait` blocks at 0 and lets any thread through otherwise, and both
operations succeed.
-/

set_option autoImplicit false

namespace Soi.Monitory

/-- The conditions of `Buffer`. -/
inductive Cond where
  | full
  | empty
  deriving DecidableEq, Repr

instance : Fintype Cond where
  elems := {.full, .empty}
  complete c := by cases c <;> decide

/-- `Condition`: the value of the semaphore `w`, and the number of the waiting threads. -/
structure Condition where
  w : Nat
  waitingCount : Nat
  deriving DecidableEq, Repr

/-- A call of the buffer. -/
inductive Call where
  | sendMsg (m : Message)
  | readMsg
  deriving DecidableEq, Repr

/-- The condition on which the call waits. -/
def Call.waitsOn : Call → Cond
  | .sendMsg _ => .full
  | .readMsg => .empty

/-- The condition that the call signals. -/
def Call.signals : Call → Cond
  | .sendMsg _ => .empty
  | .readMsg => .full

/-- The test before the list is used: the call waits when it holds. -/
def Call.mustWait (capacity : Nat) (buffer : List Message) : Call → Bool
  | .sendMsg _ => Buffer.getSize buffer == capacity
  | .readMsg => Buffer.getSize buffer == 0

/-- The test after the list was used: the call signals when it holds. -/
def Call.mustSignal (capacity : Nat) (buffer : List Message) : Call → Bool
  | .sendMsg _ => Buffer.getSize buffer == 1
  | .readMsg => Buffer.getSize buffer == capacity - 1

/-- The place of a thread. -/
inductive Pc where
  /-- Between two calls, about to do `enter()`. -/
  | idle
  /-- Inside, before the test. -/
  | test (call : Call)
  /-- Inside `wait`, about to do `leave()`. -/
  | waitLeave (call : Call)
  /-- Inside `wait`, about to do `cond.wait()`. -/
  | waitP (call : Call)
  /-- Inside, about to use the list. -/
  | body (call : Call)
  /-- Inside `cond.signal()`, about to do `w.v()`. -/
  | signalV (call : Call)
  /-- Inside `signal`, about to do `enter()`. -/
  | signalEnter (call : Call)
  /-- Inside, about to do `leave()`. -/
  | leave (call : Call)
  deriving DecidableEq, Repr

/-- A thread: its place, the calls that it will make, and the messages that it sent and read so
far. -/
structure Thread where
  pc : Pc
  calls : List Call
  sent : List Message
  got : List Message
  deriving DecidableEq, Repr

/-- The buffer with its monitor, and the threads. -/
structure Chat (ι : Type*) where
  s : Nat
  cond : Cond → Condition
  buffer : List Message
  thread : ι → Thread

/-- The list is used, and the thread has sent or got a message. -/
def Call.use (call : Call) (t : Thread) (buffer : List Message) :
    Option (Thread × List Message) :=
  match call with
  | .sendMsg m => some ({ t with sent := t.sent ++ [m] }, Buffer.send m buffer)
  | .readMsg => do
      let (m, buffer) ← Buffer.read buffer
      some ({ t with got := t.got ++ [m] }, buffer)

namespace Chat

variable {ι : Type*} [DecidableEq ι]

/-- The thread `i` is now `t`. -/
def setThread (chat : Chat ι) (i : ι) (t : Thread) : Chat ι :=
  { chat with thread := Function.update chat.thread i t }

/-- The condition `c` is now `cond`. -/
def setCond (chat : Chat ι) (c : Cond) (cond : Condition) : Chat ι :=
  { chat with cond := Function.update chat.cond c cond }

/-- The step of the thread `i`, where the list has room for `capacity` messages. There is none
when the thread is blocked or has made all its calls, or when it would read an empty list. -/
def next (capacity : Nat) (chat : Chat ι) (i : ι) : Option (Chat ι) :=
  let t := chat.thread i
  match t.pc with
  | .idle =>
      match t.calls with
      | [] => none
      | call :: calls =>
          if chat.s = 0 then
            none
          else
            some { chat.setThread i { t with pc := .test call, calls } with s := chat.s - 1 }
  | .test call =>
      if call.mustWait capacity chat.buffer then
        let cond := chat.cond call.waitsOn
        some ((chat.setCond call.waitsOn { cond with
          waitingCount := cond.waitingCount + 1 }).setThread i { t with pc := .waitLeave call })
      else
        some (chat.setThread i { t with pc := .body call })
  | .waitLeave call =>
      some { chat.setThread i { t with pc := .waitP call } with s := chat.s + 1 }
  | .waitP call =>
      let cond := chat.cond call.waitsOn
      if cond.w = 0 then
        none
      else
        some ((chat.setCond call.waitsOn { cond with
          w := cond.w - 1 }).setThread i { t with pc := .body call })
  | .body call =>
      match call.use t chat.buffer with
      | none => none
      | some (t, buffer) =>
          let chat := { chat with buffer := buffer }
          let cond := chat.cond call.signals
          if call.mustSignal capacity buffer && cond.waitingCount != 0 then
            some ((chat.setCond call.signals { cond with
              waitingCount := cond.waitingCount - 1 }).setThread i { t with pc := .signalV call })
          else
            some (chat.setThread i { t with pc := .leave call })
  | .signalV call =>
      let cond := chat.cond call.signals
      some ((chat.setCond call.signals { cond with
        w := cond.w + 1 }).setThread i { t with pc := .signalEnter call })
  | .signalEnter call =>
      if chat.s = 0 then
        none
      else
        some { chat.setThread i { t with pc := .leave call } with s := chat.s - 1 }
  | .leave _ =>
      some { chat.setThread i { t with pc := .idle } with s := chat.s + 1 }

/-- A step of any thread. -/
def Step (capacity : Nat) (chat chat' : Chat ι) : Prop := ∃ i, chat.next capacity i = some chat'

/-- A run. -/
def Reaches (capacity : Nat) : Chat ι → Chat ι → Prop := Relation.ReflTransGen (Step capacity)

/-- A new buffer, and threads that will make these calls. -/
def start (program : ι → List Call) : Chat ι where
  s := 1
  cond _ := ⟨0, 0⟩
  buffer := []
  thread i := ⟨.idle, program i, [], []⟩

end Chat

/-- `priority_user` and `regular_user`: `howMany` calls with the same message. -/
def sendingUser (pri userID : Int) (howMany : Nat) : List Call :=
  List.replicate howMany (.sendMsg ⟨"Wysylam swoje ID: " ++ toString userID, pri, userID⟩)

def priorityUser (userID : Int) (howManyPri : Nat) : List Call := sendingUser 1 userID howManyPri

def regularUser (userID : Int) (howManyReg : Nat) : List Call := sendingUser 0 userID howManyReg

/-- `reader`. -/
def reader (howMany : Nat) : List Call := List.replicate howMany .readMsg

end Soi.Monitory
