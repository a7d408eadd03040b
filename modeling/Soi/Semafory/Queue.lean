import Mathlib.Logic.Function.Basic

/-!
# `Soi.Semafory.Queue`: the queue in shared memory of `czacik.c`

`struct Queue` is a ring of `BUFFER_SIZE` messages. A message of priority goes in front of `head`,
any other one to `tail`, and `read_msg` takes the one at `head`. The table is a function on all
indices, and that the indices stay in `[0, BUFFER_SIZE)` is a theorem. `bufferSize` is
`BUFFER_SIZE`. The operator `%` of C rounds towards 0.
-/

set_option autoImplicit false

namespace Soi.Semafory

/-- `struct Message`. -/
structure Message where
  pri : Int
  source : Int
  m : Char
  deriving DecidableEq, Repr

/-- `struct Queue`. -/
structure Queue where
  table : Int → Message
  head : Int
  tail : Int
  size : Int

namespace Queue

/-- `queue_init`. -/
def queueInit (q : Queue) : Queue := { q with head := 0, tail := 0, size := 0 }

/-- The entry in front of `head`: the first one is in front of the last one. -/
def beforeHead (bufferSize : Nat) (q : Queue) : Int :=
  if q.head - 1 < 0 then bufferSize - 1 else q.head - 1

/-- `send_msg`. -/
def sendMsg (bufferSize : Nat) (q : Queue) (m : Message) : Queue :=
  let q :=
    if m.pri = 1 then
      let head := q.beforeHead bufferSize
      { q with head := head, table := Function.update q.table head m }
    else
      { q with
          table := Function.update q.table q.tail m
          tail := (q.tail + 1).tmod bufferSize }
  { q with size := q.size + 1 }

/-- `read_msg`. -/
def readMsg (bufferSize : Nat) (q : Queue) : Message × Queue :=
  (q.table q.head, { q with head := (q.head + 1).tmod bufferSize, size := q.size - 1 })

/-- The entry that `send_msg` writes. -/
def sendSlot (bufferSize : Nat) (q : Queue) (m : Message) : Int :=
  if m.pri = 1 then q.beforeHead bufferSize else q.tail

end Queue

end Soi.Semafory
