import Mathlib.Data.List.Basic
import Mathlib.Logic.Function.Iterate

/-!
# `Soi.Monitory.Buffer`: the list of messages of `chat.cpp`

`Buffer` keeps its messages in a `forward_list<Message>`, and inserts behind a node that a loop
over the list finds. An iterator is the number of nodes up to the one that it points to:
`before_begin()` is 0, `begin()` is 1, and `i++` adds 1. It points to a node, or before the
first one, when it is at most the length of the list, and then `insert_after` is defined.

The type of a counter is `int`, which is wide enough for the lists that fit in memory.
-/

set_option autoImplicit false

namespace Soi.Monitory

/-- `struct Message`. -/
structure Message where
  m : String
  pri : Int
  source : Int
  deriving DecidableEq, Repr

namespace Buffer

/-- The loops over the list that count: all messages, or some of them. -/
def countLoop (counts : Message → Bool) (counter : Nat) : List Message → Nat
  | [] => counter
  | x :: buffer => countLoop counts (if counts x then counter + 1 else counter) buffer

/-- `get_size`. -/
def getSize (buffer : List Message) : Nat := countLoop (fun _ => true) 0 buffer

def beforeBegin : Nat := 0

def begin : Nat := 1

/-- The node that `counter` messages end at: `before_begin()` for none of them, else `begin()`
moved on `counter - 1` times. -/
def nodeAt (counter : Nat) : Nat :=
  if counter = 0 then beforeBegin else (· + 1)^[counter - 1] begin

/-- `find_next_pri`: the node behind which the next message of priority goes. -/
def findNextPri (buffer : List Message) : Nat :=
  nodeAt (countLoop (fun x => x.pri == 1) 0 buffer)

/-- `find_last`: the last node. -/
def findLast (buffer : List Message) : Nat := nodeAt (countLoop (fun _ => true) 0 buffer)

/-- `insert_after`. -/
def insertAfter (i : Nat) (m : Message) (buffer : List Message) : List Message :=
  buffer.take i ++ m :: buffer.drop i

/-- What `send_msg` does to the list. -/
def send (m : Message) (buffer : List Message) : List Message :=
  if m.pri = 1 then
    insertAfter (findNextPri buffer) m buffer
  else
    insertAfter (findLast buffer) m buffer

/-- What `read_msg` does: `*buffer.begin()` and `pop_front()`, which are undefined on an empty
list. -/
def read : List Message → Option (Message × List Message)
  | [] => none
  | m :: buffer => some (m, buffer)

end Buffer

end Soi.Monitory
