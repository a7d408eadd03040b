import Soi.Lib.Run
import Soi.Semafory.Czacik

/-!
# `Soi.Semafory.Chatting`: the users of `chatting.c`

The queue and its functions are those of `czacik.c`, but the semaphores are named ones, and the
writers take `mutex` before `empty`: `sem_wait(mutex)`, `sem_wait(empty)`, `send_msg`,
`sem_post(full)`, `sem_post(mutex)`. The reader does `sem_wait(full)`, `sem_wait(mutex)`,
`read_msg`, `sem_post(empty)`, `sem_post(mutex)`. One step is one of these five.

`sem_open` with `O_CREAT` keeps the value of a semaphore that exists already, and nothing unlinks
them. So a run can start with any values, while `queue_init` always empties the queue. The message
that is read is only printed.

`Named` is what stays between two runs, and `History` is a sequence of runs.
-/

set_option autoImplicit false

namespace Soi.Semafory

namespace Chatting

/-- The place of a process. -/
inductive Pc where
  /-- Between two messages, about to wait for `mutex` (a writer) or `full` (the reader). -/
  | idle
  /-- A writer with `mutex`, about to wait for `empty`. -/
  | waitEmpty (m : Message)
  /-- The reader with a unit of `full`, about to wait for `mutex`. -/
  | waitMutex
  /-- About to call `send_msg` or `read_msg`. -/
  | body (op : Op)
  /-- About to post `full` or `empty`. -/
  | postGives (op : Op)
  | postMutex (op : Op)
  deriving DecidableEq, Repr

/-- A process: its place, and what it has still to do. -/
structure Process where
  pc : Pc
  ops : List Op
  deriving DecidableEq, Repr

end Chatting

/-- What `send_msg` or `read_msg` does to the queue. -/
def Op.useQueue (bufferSize : Nat) (op : Op) (q : Queue) : Queue :=
  match op with
  | .send m => q.sendMsg bufferSize m
  | .read => (q.readMsg bufferSize).2

/-- The shared memory, the semaphores and the processes. -/
structure Chatting (ι : Type*) where
  mutex : Nat
  sem : Sem → Nat
  queue : Queue
  proc : ι → Chatting.Process

namespace Chatting

variable {ι : Type*} [DecidableEq ι]

/-- The process `i` is now `p`. -/
def setProc (chat : Chatting ι) (i : ι) (p : Process) : Chatting ι :=
  { chat with proc := Function.update chat.proc i p }

/-- The value of the semaphore `c` is now `value`. -/
def setSem (chat : Chatting ι) (c : Sem) (value : Nat) : Chatting ι :=
  { chat with sem := Function.update chat.sem c value }

/-- The step of the process `i`, or `none` when it is blocked or has finished. -/
def next (bufferSize : Nat) (chat : Chatting ι) (i : ι) : Option (Chatting ι) :=
  let p := chat.proc i
  match p.pc with
  | .idle =>
      match p.ops with
      | [] => none
      | .send m :: ops =>
          if chat.mutex = 0 then
            none
          else
            some { chat.setProc i ⟨.waitEmpty m, ops⟩ with mutex := chat.mutex - 1 }
      | .read :: ops =>
          if chat.sem .full = 0 then
            none
          else
            some ((chat.setSem .full (chat.sem .full - 1)).setProc i ⟨.waitMutex, ops⟩)
  | .waitEmpty m =>
      if chat.sem .empty = 0 then
        none
      else
        some ((chat.setSem .empty (chat.sem .empty - 1)).setProc i ⟨.body (.send m), p.ops⟩)
  | .waitMutex =>
      if chat.mutex = 0 then
        none
      else
        some { chat.setProc i ⟨.body .read, p.ops⟩ with mutex := chat.mutex - 1 }
  | .body op =>
      some { chat.setProc i ⟨.postGives op, p.ops⟩ with
        queue := op.useQueue bufferSize chat.queue }
  | .postGives op =>
      some ((chat.setSem op.gives (chat.sem op.gives + 1)).setProc i ⟨.postMutex op, p.ops⟩)
  | .postMutex _ =>
      some { chat.setProc i ⟨.idle, p.ops⟩ with mutex := chat.mutex + 1 }

/-- A run. -/
def Reaches (bufferSize : Nat) : Chatting ι → Chatting ι → Prop :=
  Relation.ReflTransGen fun chat chat' => ∃ i, chat.next bufferSize i = some chat'

/-- The semaphores as an earlier run left them, with `mutex` free, the queue after `queue_init`,
and processes that will do this. -/
def start (full empty : Nat) (q : Queue) (program : ι → List Op) : Chatting ι where
  mutex := 1
  sem
    | .full => full
    | .empty => empty
  queue := q.queueInit
  proc i := ⟨.idle, program i⟩

/-- `user_A`, which sends 2 messages. -/
def userA (count : Nat) : List Op := List.replicate count (.send ⟨1, 1, 'R'⟩)

/-- `user_B`, which sends 2 messages. -/
def userB (count : Nat) : List Op := List.replicate count (.send ⟨0, 0, 'r'⟩)

/-- `reader`. -/
def reader : List Op := List.replicate 10 .read

/-- What `main` starts, with the numbers of messages as parameters. -/
def users (countA countB : Nat) : User → List Op
  | .userA => userA countA
  | .userB => userB countB
  | .reader => reader

/-- The values of the named semaphores between two runs. -/
structure Named where
  mutex : Nat
  full : Nat
  empty : Nat
  deriving DecidableEq, Repr

/-- `main` up to its last `fork`, where `sem_open` finds these semaphores. -/
def Named.main (names : Named) (q : Queue) (countA countB : Nat) : Chatting User :=
  { start names.full names.empty q (users countA countB) with mutex := names.mutex }

/-- What a run leaves. -/
def Named.ofChatting (chat : Chatting User) : Named := ⟨chat.mutex, chat.sem .full, chat.sem .empty⟩

/-- Before the first run: `sem_open` makes the semaphores, with these values. -/
def Named.fresh (bufferSize : Nat) : Named := ⟨1, 0, bufferSize⟩

/-- A run of `main` up to a state where nobody has a step. Then the processes that wait are killed,
which leaves the semaphores as they are. -/
def Session (bufferSize countA countB : Nat) (names names' : Named) : Prop :=
  ∃ q chat, Reaches bufferSize (names.main q countA countB) chat ∧
    (∀ i, chat.next bufferSize i = none) ∧ names' = .ofChatting chat

/-- A sequence of runs with as many messages as the list says. -/
def History (bufferSize : Nat) : List (Nat × Nat) → Named → Named → Prop
  | [], names, names' => names' = names
  | (countA, countB) :: counts, names, names' =>
      ∃ mid, Session bufferSize countA countB names mid ∧ History bufferSize counts mid names'

end Chatting

end Soi.Semafory
