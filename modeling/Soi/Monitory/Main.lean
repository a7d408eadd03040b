import Soi.Monitory.Chat

/-!
# `Soi.Monitory.Main`: `main` of `chat.cpp`

`main` creates the threads of the regular users, of the priority users and of the reader, and then
it joins them in the same order. A thread can take its steps from the moment when it is created,
while `main` creates the other ones. `Main.next` interleaves the steps of `main` with those of the
threads, and the step of `main` is one `pthread_create` or one `pthread_join`.
-/

set_option autoImplicit false

namespace Soi.Monitory

/-- `BUFFER_SIZE`. -/
def bufferSize : Nat := 10

/-- The five arguments, after `atoi`. The number of users is the length of an array that is
allocated, so that it is not negative. -/
structure Args where
  pri : Nat
  howManyPri : Int
  reg : Nat
  howManyReg : Int
  read : Int
  deriving DecidableEq, Repr

/-- The threads, in the order in which they are created. The reader is created last, and only when
it has something to read. A loop of a thread runs at most as often as its number says. -/
def Args.threads (args : Args) : List (List Call) :=
  (List.range args.reg).map (fun i : Nat => regularUser i args.howManyReg.toNat) ++
    (List.range args.pri).map
      (fun i : Nat => priorityUser (i + args.reg) args.howManyPri.toNat) ++
    if 0 < args.read then [reader args.read.toNat] else []

/-- The program of each thread. -/
def Args.program (args : Args) (i : Fin args.threads.length) : List Call := args.threads.get i

/-- The function of the thread has returned. -/
def Thread.returned (t : Thread) : Bool :=
  match t.pc, t.calls with
  | .idle, [] => true
  | _, _ => false

/-- The threads, and how many of them `main` has created and joined. -/
structure Main (n : Nat) where
  chat : Chat (Fin n)
  created : Nat
  joined : Nat

namespace Main

variable {n : Nat}

/-- The step of `main` (`none`), or of one of the threads. -/
def next (capacity : Nat) (s : Main n) : Option (Fin n) → Option (Main n)
  | none =>
      if s.created < n then
        some { s with created := s.created + 1 }
      else if h : s.joined < n then
        if (s.chat.thread ⟨s.joined, h⟩).returned then
          some { s with joined := s.joined + 1 }
        else
          none
      else
        none
  | some i =>
      if i < s.created then
        (s.chat.next capacity i).map fun chat => { s with chat }
      else
        none

/-- `main` has a new buffer, and it has created no thread yet. -/
def start (program : Fin n → List Call) : Main n where
  chat := Chat.start program
  created := 0
  joined := 0

/-- `main` has joined all threads, and returns. -/
def Returned (s : Main n) : Prop := s.created = n ∧ s.joined = n

end Main

end Soi.Monitory
