import Soi.Semafory.Czacik

/-!
# `Soi.Semafory.Main`: the runs of `czacik.c`, one after the other

The shared memory and the semaphore sets of System V stay when a run is over. `main` empties the
queue each time. For each semaphore it calls `semget` with `IPC_CREAT|IPC_EXCL` and then `semctl`
with `SETVAL`, and it checks neither. When the set exists, `semget` returns -1, and `semctl` fails
on this id. The users call `semget` without these flags, and so they get the set.

A run ends when each user is between two messages: it has finished, or it is killed there.
-/

set_option autoImplicit false

namespace Soi.Semafory

/-- What stays between the runs: the shared memory, and the value of each semaphore that exists. -/
structure Ipc where
  queue : Queue
  full : Option Nat
  empty : Option Nat
  mutex : Option Nat

namespace Ipc

/-- `semget` with `IPC_CREAT|IPC_EXCL`: whether it returns an id, and the value of the semaphore
after that. A new one is 0. -/
def semget : Option Nat → Bool × Nat
  | none => (true, 0)
  | some old => (false, old)

/-- `semctl` with `SETVAL`: the value after that. On the id -1 it has no effect. -/
def semctl (id : Bool) (value old : Nat) : Nat := if id then value else old

/-- The two calls of `main` for a semaphore. -/
def openSem (value : Nat) (set : Option Nat) : Nat :=
  let (id, old) := semget set
  semctl id value old

/-- `main` up to its last `fork`. A user is only forked when its argument is positive, and one that
is not forked has nothing to do. Without arguments `main` returns before the first `fork`, which is
a run of no users. -/
def main (bufferSize : Nat) (ipc : Ipc) (A B read : Int) : Chat User where
  mutex := openSem 1 ipc.mutex
  sem
    | .full => openSem 0 ipc.full
    | .empty => openSem bufferSize ipc.empty
  queue := ipc.queue.queueInit
  proc i := ⟨.idle, users A.toNat B.toNat read.toNat i, [], []⟩

/-- What a run leaves. -/
def ofChat (chat : Chat User) : Ipc :=
  ⟨chat.queue, some (chat.sem .full), some (chat.sem .empty), some chat.mutex⟩

/-- A run of `main`, from what it finds to what it leaves. -/
def Session (bufferSize : Nat) (ipc ipc' : Ipc) : Prop :=
  ∃ A B read chat, Chat.Reaches bufferSize (ipc.main bufferSize A B read) chat ∧
    (∀ i, (chat.proc i).pc = .idle) ∧ ipc' = ofChat chat

/-- A sequence of runs. -/
def History (bufferSize : Nat) : Ipc → Ipc → Prop :=
  Relation.ReflTransGen (Session bufferSize)

/-- Before the first run there is no semaphore. -/
def fresh (q : Queue) : Ipc := ⟨q, none, none, none⟩

end Ipc

end Soi.Semafory
