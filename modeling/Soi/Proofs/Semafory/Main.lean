import Soi.Proofs.Semafory.Czacik
import Soi.Semafory.Main

/-!
# `Soi.Proofs.Semafory.Main`: which runs of `czacik.c` start consistent

Whatever is in the queue, a step neither makes nor loses a unit (`reaches_drift`), and `mutex` comes
back (`reaches_owners`). So after a run `mutex` is 1, and `full` and `empty` add up to `BUFFER_SIZE`
(`session_kept`, `history_kept`). But each run empties the queue, and only the first one sets the
semaphores. `safeRun_main_iff` is what comes of that: a run is as it should be just when it finds no
`full`, or one that is 0.
-/

set_option autoImplicit false

namespace Soi.Semafory

open Soi.Lib

namespace Chat

section
variable {ι : Type*} [DecidableEq ι] [Fintype ι] {n : Nat} {chat chat' : Chat ι}

/-- The number of the owners of `mutex` is the same in each state of a run. -/
theorem reaches_owners (hrun : Reaches n chat chat') : chat'.owners = chat.owners := by
  refine Run.invariant (P := fun a => a.owners = chat.owners) hrun rfl ?_
  rintro a b ha ⟨i, hnext⟩
  exact (turn_owners (turn_of_next hnext)).trans ha

/-- What a semaphore and the processes have together, compared with the queue, is the same in each
state of a run. -/
theorem reaches_drift (hrun : Reaches n chat chat') (c : Sem) :
    chat'.drift n c = chat.drift n c := by
  refine Run.invariant (P := fun a => a.drift n c = chat.drift n c) hrun rfl ?_
  rintro a b ha ⟨i, hnext⟩
  exact (turn_drift (turn_of_next hnext) c).trans ha

omit [DecidableEq ι] in
/-- Between two messages a process has nothing in its hands. -/
theorem owners_of_idle (hidle : ∀ i, (chat.proc i).pc = .idle) : chat.owners = chat.mutex := by
  have hcount : count (fun p : Process => p.pc.critical) chat.proc = 0 := by
    refine count_eq_zero.mpr ?_
    intro i
    rw [hidle i]
    rfl
  rw [owners, hcount, Nat.add_zero]

omit [DecidableEq ι] in
/-- When all processes are between two operations, nobody holds a unit, and the semaphore is
compared with the queue alone. -/
theorem drift_of_idle (hidle : ∀ i, (chat.proc i).pc = .idle) (c : Sem) :
    chat.drift n c = chat.sem c - chat.queue.units n c := by
  have hcount : count (fun p : Process => p.pc.holds c) chat.proc = 0 := by
    refine count_eq_zero.mpr ?_
    intro i
    rw [hidle i]
    rfl
  rw [drift, hcount, Nat.add_zero]

end

/-- The semaphores say what is in the queue. -/
structure Consistent (n : Nat) (chat : Chat User) : Prop where
  full : (chat.sem .full : Int) = chat.queue.size
  empty : (chat.sem .empty : Int) = n - chat.queue.size
  mutex : chat.mutex = 1

/-- The users start with consistent semaphores. Then nobody reads from an empty queue or sends to a
full one. -/
structure SafeRun (n : Nat) (chat₀ : Chat User) : Prop where
  consistent : chat₀.Consistent n
  reads : ∀ chat i, Reaches n chat₀ chat → (chat.proc i).pc = .body .read → 0 < chat.queue.size
  sends : ∀ chat i m, Reaches n chat₀ chat → (chat.proc i).pc = .body (.send m) →
    chat.queue.size < n

end Chat

namespace Ipc

section
variable {n : Nat} {ipc ipc' : Ipc}

/-- What is there before a run: no semaphore yet, or all three of them. -/
def Kept (n : Nat) (ipc : Ipc) : Prop :=
  (ipc.full = none ∧ ipc.empty = none ∧ ipc.mutex = none) ∨
    ∃ full empty, ipc.full = some full ∧ ipc.empty = some empty ∧ ipc.mutex = some 1 ∧
      full + empty = n

/-- The semaphores when the users are forked. -/
theorem main_sem (h : ipc.Kept n) (A B read : Int) :
    (ipc.main n A B read).mutex = 1 ∧
      (ipc.main n A B read).sem .full + (ipc.main n A B read).sem .empty = n := by
  rcases h with ⟨hfull, hempty, hmutex⟩ | ⟨full, empty, hfull, hempty, hmutex, hsum⟩
  · show openSem 1 ipc.mutex = 1 ∧ openSem 0 ipc.full + openSem n ipc.empty = n
    rw [hfull, hempty, hmutex]
    exact ⟨rfl, Nat.zero_add n⟩
  · show openSem 1 ipc.mutex = 1 ∧ openSem 0 ipc.full + openSem n ipc.empty = n
    rw [hfull, hempty, hmutex]
    exact ⟨rfl, hsum⟩

/-- A run leaves the semaphores with all their units. -/
theorem session_kept (h : ipc.Kept n) (hsession : Session n ipc ipc') : ipc'.Kept n := by
  obtain ⟨A, B, read, chat, hrun, hidle, rfl⟩ := hsession
  obtain ⟨hmutex, hsum⟩ := main_sem h A B read
  have hstart : ∀ i, ((ipc.main n A B read).proc i).pc = .idle := fun i => rfl
  have howners := Chat.reaches_owners hrun
  rw [Chat.owners_of_idle hidle, Chat.owners_of_idle hstart, hmutex] at howners
  have hfull := Chat.reaches_drift hrun .full
  have hempty := Chat.reaches_drift hrun .empty
  rw [Chat.drift_of_idle hidle, Chat.drift_of_idle hstart] at hfull hempty
  simp only [Queue.units] at hfull hempty
  right
  refine ⟨chat.sem .full, chat.sem .empty, rfl, rfl, congrArg some howners, ?_⟩
  omega

/-- The semaphores have all their units after any number of runs of `main`, since each of them
leaves them so. -/
theorem history_kept (h : ipc.Kept n) (hhistory : History n ipc ipc') : ipc'.Kept n :=
  Run.invariant hhistory h fun _ _ h hsession => session_kept h hsession

/-- A run that finds no semaphores, or `full` at 0, starts as the first one does. -/
theorem main_eq_start (h : ipc.Kept n) (hfull : ipc.full = none ∨ ipc.full = some 0)
    (A B read : Int) :
    ipc.main n A B read = .start n ipc.queue (users A.toNat B.toNat read.toNat) := by
  obtain ⟨hmutex, hsum⟩ := main_sem h A B read
  have hzero : (ipc.main n A B read).sem .full = 0 := by
    show openSem 0 ipc.full = 0
    rcases hfull with hfull | hfull
    · rw [hfull]
      rfl
    · rw [hfull]
      rfl
  have hsem : (ipc.main n A B read).sem
      = (Chat.start n ipc.queue (users A.toNat B.toNat read.toNat)).sem := by
    funext c
    cases c with
    | full => exact hzero
    | empty =>
        show (ipc.main n A B read).sem .empty = n
        omega
  show Chat.mk (ipc.main n A B read).mutex (ipc.main n A B read).sem _ _ = _
  rw [hmutex, hsem]
  rfl

end

/-- Any sequence of runs from the first one on, each with any arguments, and one more run. All is
well with it just when `full` is not there yet, or has no units left. -/
theorem safeRun_main_iff (bufferSize : Nat) (hpos : 0 < bufferSize) (q : Queue) (ipc : Ipc)
    (hhistory : History bufferSize (fresh q) ipc) (A B read : Int) :
    (ipc.main bufferSize A B read).SafeRun bufferSize ↔ ipc.full = none ∨ ipc.full = some 0 := by
  have hkept : ipc.Kept bufferSize := history_kept (Or.inl ⟨rfl, rfl, rfl⟩) hhistory
  constructor
  · intro hsafe
    have hzero : ((openSem 0 ipc.full : Nat) : Int) = 0 := hsafe.consistent.full
    cases hfull : ipc.full with
    | none => exact Or.inl rfl
    | some full =>
        rw [hfull] at hzero
        exact Or.inr (congrArg some (Int.ofNat_inj.mp hzero))
  · intro hfull
    rw [main_eq_start hkept hfull]
    have hinv : ∀ chat, Chat.Reaches bufferSize
        (.start bufferSize ipc.queue (users A.toNat B.toNat read.toNat)) chat →
        Chat.Inv bufferSize chat := fun chat => Chat.reaches_inv (Chat.start_inv hpos ipc.queue _)
    refine ⟨⟨rfl, (Int.sub_zero _).symm, rfl⟩, ?_, ?_⟩
    · intro chat i hrun hpc
      exact (hinv chat hrun).safe.reads i hpc
    · intro chat i m hrun hpc
      exact ((hinv chat hrun).safe.sends i m hpc).1

/-- The first run, in which the user A sends one message: what it leaves when nobody reads, and what
it leaves when there is a reader that reads the message. -/
def tinyLeft (read : Int) (schedule : List User) : Ipc :=
  let chat := (fresh tinyQueue).main 6 1 0 read
  ofChat ((Run.schedule (Chat.next 6) chat schedule).getD chat)

/-- The five steps of a message. -/
def tinySend : List User := [.userA, .userA, .userA, .userA, .userA]

def tinyRead : List User := [.reader, .reader, .reader, .reader, .reader]

/-- The first run read all that it sent, so that the second one is as it should be. -/
theorem safeRun_main_iff_tiny :
    ((tinyLeft 1 (tinySend ++ tinyRead)).main 6 2 2 4).SafeRun 6 := by
  have hsession : Session 6 (fresh tinyQueue) (tinyLeft 1 (tinySend ++ tinyRead)) :=
    ⟨1, 0, 1, _, Run.of_schedule (tinySend ++ tinyRead) rfl, fun i => by cases i <;> rfl, rfl⟩
  exact (safeRun_main_iff 6 (by decide) tinyQueue _ (.single hsession) 2 2 4).mpr (Or.inr rfl)

/-- The message that was not read is gone from the queue, but not from `full`. So the reader of the
second run reads from an empty queue. -/
theorem not_safeRun_main_left :
    ¬ ∀ ipc, History 6 (fresh tinyQueue) ipc → ∀ A B read, (ipc.main 6 A B read).SafeRun 6 := by
  intro hsafe
  have hsession : Session 6 (fresh tinyQueue) (tinyLeft 0 tinySend) :=
    ⟨1, 0, 0, _, Run.of_schedule tinySend rfl, fun i => by cases i <;> rfl, rfl⟩
  have hreads := (hsafe _ (.single hsession) 0 0 1).reads _ .reader
    (Run.of_schedule [.reader, .reader] rfl) rfl
  exact absurd hreads (by decide)

end Ipc

end Soi.Semafory
