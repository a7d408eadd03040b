import Mathlib.Data.Fintype.Basic
import Mathlib.Logic.Relation
import Soi.Semafory.Queue

/-!
# `Soi.Semafory.Czacik`: the users of `czacik.c`

Processes share a queue and the semaphores `full`, `empty` and `mutex`. Each of them sends and
reads messages, and does the same for a message: `down` on `empty` or `full`, `down(mutex)`, the
queue, `up(mutex)`, `up` on the other one of the two. One step is one of these five, and `Pc` is
the next one. `down` blocks at 0, and no operation fails.

`users` are the processes that `main` forks. `reader` reads `queue->size` once more after each
message, only to print it.
-/

set_option autoImplicit false

namespace Soi.Semafory

/-- The semaphores that count: messages, and places for messages. -/
inductive Sem where
  | full
  | empty
  deriving DecidableEq, Repr

/-- What a process does for one message. -/
inductive Op where
  | send (m : Message)
  | read
  deriving DecidableEq, Repr

/-- The semaphore that is downed first. -/
def Op.takes : Op → Sem
  | .send _ => .empty
  | .read => .full

/-- The semaphore that is upped last. -/
def Op.gives : Op → Sem
  | .send _ => .full
  | .read => .empty

/-- The place of a process. -/
inductive Pc where
  /-- Between two messages, about to down `empty` or `full`. -/
  | idle
  | downMutex (op : Op)
  /-- About to call `send_msg` or `read_msg`. -/
  | body (op : Op)
  | upMutex (op : Op)
  /-- About to up `full` or `empty`. -/
  | upGives (op : Op)
  deriving DecidableEq, Repr

/-- A process: its place, what it has still to do, and the messages that it sent and read so
far. -/
structure Process where
  pc : Pc
  ops : List Op
  sent : List Message
  got : List Message
  deriving DecidableEq, Repr

/-- The shared memory, the semaphores and the processes. -/
structure Chat (ι : Type*) where
  mutex : Nat
  sem : Sem → Nat
  queue : Queue
  proc : ι → Process

/-- The call of `send_msg` or `read_msg`. -/
def Op.use (bufferSize : Nat) (op : Op) (p : Process) (q : Queue) : Process × Queue :=
  match op with
  | .send m => ({ p with sent := p.sent ++ [m] }, q.sendMsg bufferSize m)
  | .read =>
      let (m, q) := q.readMsg bufferSize
      ({ p with got := p.got ++ [m] }, q)

namespace Chat

variable {ι : Type*} [DecidableEq ι]

/-- The process `i` is now `p`. -/
def setProc (chat : Chat ι) (i : ι) (p : Process) : Chat ι :=
  { chat with proc := Function.update chat.proc i p }

/-- The value of the semaphore `c` is now `value`. -/
def setSem (chat : Chat ι) (c : Sem) (value : Nat) : Chat ι :=
  { chat with sem := Function.update chat.sem c value }

/-- The step of the process `i`, or `none` when it is blocked or has finished. -/
def next (bufferSize : Nat) (chat : Chat ι) (i : ι) : Option (Chat ι) :=
  let p := chat.proc i
  match p.pc with
  | .idle =>
      match p.ops with
      | [] => none
      | op :: ops =>
          if chat.sem op.takes = 0 then
            none
          else
            some ((chat.setSem op.takes (chat.sem op.takes - 1)).setProc i
              { p with pc := .downMutex op, ops })
  | .downMutex op =>
      if chat.mutex = 0 then
        none
      else
        some { chat.setProc i { p with pc := .body op } with mutex := chat.mutex - 1 }
  | .body op =>
      let (p, queue) := op.use bufferSize p chat.queue
      some { chat.setProc i { p with pc := .upMutex op } with queue }
  | .upMutex op =>
      some { chat.setProc i { p with pc := .upGives op } with mutex := chat.mutex + 1 }
  | .upGives op =>
      some ((chat.setSem op.gives (chat.sem op.gives + 1)).setProc i { p with pc := .idle })

/-- A step of any process. -/
def Step (bufferSize : Nat) (chat chat' : Chat ι) : Prop :=
  ∃ i, chat.next bufferSize i = some chat'

/-- A run. -/
def Reaches (bufferSize : Nat) : Chat ι → Chat ι → Prop :=
  Relation.ReflTransGen (Step bufferSize)

/-- New semaphores, the queue after `queue_init`, and processes that will do this. -/
def start (bufferSize : Nat) (q : Queue) (program : ι → List Op) : Chat ι where
  mutex := 1
  sem
    | .full => 0
    | .empty => bufferSize
  queue := q.queueInit
  proc i := ⟨.idle, program i, [], []⟩

end Chat

/-- The processes that `main` forks. -/
inductive User where
  | userA
  | userB
  | reader
  deriving DecidableEq, Repr

instance : Fintype User where
  elems := {.userA, .userB, .reader}
  complete i := by cases i <;> decide

/-- The messages of `user_A` and `user_B`: the letters of a name, again and again. -/
def sendingUser (pri source : Int) (message : List Char) (input : Nat) : List Op :=
  (List.range input).map fun i => .send ⟨pri, source, message.getD (i % 6) ' '⟩

/-- `user_A`. -/
def userA (input : Nat) : List Op := sendingUser 1 1 ['R', 'O', 'B', 'E', 'R', 'T'] input

/-- `user_B`. -/
def userB (input : Nat) : List Op := sendingUser 0 0 ['r', 'o', 'b', 'e', 'r', 't'] input

/-- `reader`. -/
def reader (input : Nat) : List Op := List.replicate input .read

/-- What `main` starts for its arguments. -/
def users (A B read : Nat) : User → List Op
  | .userA => userA A
  | .userB => userB B
  | .reader => reader read

end Soi.Semafory
