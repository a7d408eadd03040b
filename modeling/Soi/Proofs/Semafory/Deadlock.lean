import Soi.Proofs.Semafory.Czacik

/-!
# `Soi.Proofs.Semafory.Deadlock`: where the users of `czacik.c` get stuck

A user downs `empty` or `full` before `mutex`. So the owner of `mutex` never waits
(`exists_next_of_critical`), and in a state without a step `mutex` is free and all processes are
between two messages (`Stuck.idle`). Then nobody has a unit of a semaphore, and `tokens` of the
invariant says what is in the queue: a writer is stuck only when it is full, and the reader only
when it is empty.

`stuckUsers_of_reaches` is the result for the processes of `main`. Who is a writer is known, since
each process keeps to its program (`reaches_ops`).
-/

set_option autoImplicit false

namespace Soi.Semafory

open Soi.Lib

namespace Chat

variable {ι : Type*} [DecidableEq ι] {n : Nat} {chat chat' : Chat ι} {i : ι}

/-- The process has done all that it had to do. -/
def Finished (chat : Chat ι) (i : ι) : Prop :=
  (chat.proc i).pc = .idle ∧ (chat.proc i).ops = []

/-- The process is not finished, and it has no step. -/
def Blocked (n : Nat) (chat : Chat ι) (i : ι) : Prop :=
  ¬ chat.Finished i ∧ chat.next n i = none

/-- The process is in `down` on a semaphore that is 0. -/
def WaitsOn (chat : Chat ι) (i : ι) (c : Sem) : Prop :=
  (chat.proc i).pc = .idle ∧ (∃ op ops, (chat.proc i).ops = op :: ops ∧ op.takes = c) ∧
    chat.sem c = 0

/-- Some process is not finished, and no process has a step. -/
def Stuck (n : Nat) (chat : Chat ι) : Prop :=
  (∃ i, ¬ chat.Finished i) ∧ ∀ i, chat.next n i = none

/-- The owner of `mutex` has a step. -/
theorem exists_next_of_critical (hcritical : (chat.proc i).pc.critical = true) :
    ∃ chat', chat.next n i = some chat' := by
  cases hpc : (chat.proc i).pc with
  | body op =>
      simp only [next, hpc]
      exact ⟨_, rfl⟩
  | upMutex op =>
      simp only [next, hpc]
      exact ⟨_, rfl⟩
  | _ =>
      rw [hpc] at hcritical
      cases hcritical

/-- A process without a step is finished, or it is in front of a semaphore that is 0. -/
theorem cases_of_next_none (h : chat.next n i = none) :
    chat.Finished i ∨ (∃ c, chat.WaitsOn i c) ∨
      ((∃ op, (chat.proc i).pc = .downMutex op) ∧ chat.mutex = 0) := by
  rw [next] at h
  split at h
  · rename_i hpc
    split at h
    · rename_i hops
      exact Or.inl ⟨hpc, hops⟩
    · rename_i op ops hops
      split_ifs at h with hsem
      exact Or.inr (Or.inl ⟨op.takes, hpc, ⟨op, ops, hops, rfl⟩, hsem⟩)
  · rename_i op hpc
    split_ifs at h with hmutex
    exact Or.inr (Or.inr ⟨⟨op, hpc⟩, hmutex⟩)
  · cases h
  · cases h
  · cases h

/-- A step takes the first operation of a process, or it leaves the operations alone. -/
theorem turn_ops (hturn : Turn n chat i chat') (j : ι) :
    (chat'.proc j).ops <:+ (chat.proc j).ops := by
  by_cases hj : j = i
  · subst hj
    cases hturn with
    | @take op ops hpc hops hsem =>
        simp only [setProc, Function.update_self, hops]
        exact List.suffix_cons op ops
    | downMutex hpc hmutex => simp [setProc]
    | @body op hpc => cases op <;> simp [setProc, Op.use]
    | upMutex hpc => simp [setProc]
    | give hpc => simp [setProc, setSem]
  · have hsame : chat'.proc j = chat.proc j := by
      cases hturn <;> simp [setProc, setSem, hj]
    rw [hsame]

/-- What a process has still to do is the end of its program. -/
theorem reaches_ops {chat₀ : Chat ι} (hrun : Reaches n chat₀ chat) (j : ι) :
    (chat.proc j).ops <:+ (chat₀.proc j).ops := by
  refine Run.invariant (P := fun a => (a.proc j).ops <:+ (chat₀.proc j).ops) hrun
    (List.suffix_refl _) ?_
  rintro a b ha ⟨i, hnext⟩
  exact (turn_ops (turn_of_next hnext) j).trans ha

variable [Fintype ι]

/-- In a state without a step `mutex` is free, and each process is finished or in front of `empty`
or `full`. -/
theorem Stuck.idle (h : Inv n chat) (hstuck : ∀ i, chat.next n i = none) :
    chat.mutex = 1 ∧ ∀ i, chat.Finished i ∨ ∃ c, chat.WaitsOn i c := by
  have hmutex := h.mutex
  have hcount : count (fun p : Process => p.pc.critical) chat.proc = 0 := by
    refine count_eq_zero.mpr ?_
    intro i
    by_contra hcritical
    obtain ⟨chat', hnext⟩ := exists_next_of_critical (n := n) (by simpa using hcritical)
    rw [hstuck i] at hnext
    cases hnext
  have hone : chat.mutex = 1 := by omega
  refine ⟨hone, ?_⟩
  intro i
  rcases cases_of_next_none (hstuck i) with hfin | hwait | ⟨-, hzero⟩
  · exact Or.inl hfin
  · exact Or.inr hwait
  · omega

/-- Then the semaphores count what is in the queue, and what there is room for. -/
theorem Stuck.sem_eq (h : Inv n chat) (hstuck : ∀ i, chat.next n i = none) (c : Sem) :
    (chat.sem c : Int) = chat.queue.units n c := by
  have htokens := h.tokens c
  have hcount : count (fun p : Process => p.pc.holds c) chat.proc = 0 := by
    refine count_eq_zero.mpr ?_
    intro i
    -- A process between two messages has no unit.
    have hpc : (chat.proc i).pc = .idle := by
      rcases (Stuck.idle h hstuck).2 i with hfin | ⟨_, hwait⟩
      · exact hfin.1
      · exact hwait.1
    show (chat.proc i).pc.holds c = false
    rw [hpc]
    rfl
  rw [hcount, Nat.add_zero] at htokens
  exact htokens

end Chat

/-- What can be known of a state of the users without a step. -/
structure StuckUsers (n : Nat) (chat : Chat User) : Prop where
  mutex : chat.mutex = 1
  /-- The queue is full and the reader is done, or it is empty and the writers are done. -/
  queue : (chat.Finished .reader ∧ chat.queue.size = n ∧
      ∀ i, ¬ chat.Finished i → i ≠ .reader ∧ chat.WaitsOn i .empty) ∨
    (chat.Finished .userA ∧ chat.Finished .userB ∧ chat.queue.size = 0 ∧
      chat.WaitsOn .reader .full)

/-- The writers take from `empty`, and the reader from `full`. -/
theorem takes_of_mem_users {A B read : Nat} {i : User} {op : Op} (h : op ∈ users A B read i) :
    op.takes = .empty ∧ i ≠ .reader ∨ op.takes = .full ∧ i = .reader := by
  cases i with
  | reader =>
      obtain ⟨-, rfl⟩ := List.mem_replicate.mp h
      exact Or.inr ⟨rfl, rfl⟩
  | _ =>
      obtain ⟨k, -, rfl⟩ := List.mem_map.mp h
      exact Or.inl ⟨rfl, by decide⟩

/-- `user_A`, `user_B` and `reader` with any numbers of messages, in any order of their steps, over
a queue of any size. A process that owns `mutex` is not blocked. When no process has a step, the
reader is done and the queue is full, or the writers are done and the queue is empty. -/
theorem stuckUsers_of_reaches (bufferSize : Nat) (hpos : 0 < bufferSize) (q : Queue)
    (A B read : Nat) (chat : Chat User)
    (hrun : Chat.Reaches bufferSize (.start bufferSize q (users A B read)) chat) :
    (∀ i, chat.Blocked bufferSize i → (chat.proc i).pc.critical = false) ∧
      (chat.Stuck bufferSize → StuckUsers bufferSize chat) := by
  have hinv := Chat.reaches_inv (Chat.start_inv hpos q _) hrun
  constructor
  · rintro i ⟨-, hnone⟩
    by_contra hcritical
    obtain ⟨chat', hnext⟩ := Chat.exists_next_of_critical (n := bufferSize)
      (by simpa using hcritical)
    rw [hnone] at hnext
    cases hnext
  · rintro ⟨⟨i, hi⟩, hstuck⟩
    obtain ⟨hmutex, hidle⟩ := Chat.Stuck.idle hinv hstuck
    have hfull : (chat.sem .full : Int) = chat.queue.size := Chat.Stuck.sem_eq hinv hstuck .full
    have hempty : (chat.sem .empty : Int) = bufferSize - chat.queue.size :=
      Chat.Stuck.sem_eq hinv hstuck .empty
    -- A process waits for the semaphore that its program takes from.
    have hwaits : ∀ j c, chat.WaitsOn j c → c = .empty ∧ j ≠ .reader ∨ c = .full ∧ j = .reader := by
      rintro j c ⟨-, ⟨op, ops, hops, rfl⟩, -⟩
      exact takes_of_mem_users
        ((Chat.reaches_ops hrun j).mem (hops ▸ List.mem_cons_self))
    refine ⟨hmutex, ?_⟩
    obtain ⟨c, hwait⟩ := (hidle i).resolve_left hi
    have hzero := hwait.2.2
    rcases hwaits i c hwait with ⟨rfl, -⟩ | ⟨rfl, rfl⟩
    · -- No place is free: nobody waits for a message.
      left
      have hother : ∀ j, ¬ chat.WaitsOn j .full := by
        intro j hj
        have := hj.2.2
        omega
      have hwriter : ∀ j, ¬ chat.Finished j → j ≠ .reader ∧ chat.WaitsOn j .empty := by
        intro j hj
        obtain ⟨d, hd⟩ := (hidle j).resolve_left hj
        rcases hwaits j d hd with ⟨rfl, hne⟩ | ⟨rfl, -⟩
        · exact ⟨hne, hd⟩
        · exact absurd hd (hother j)
      refine ⟨?_, by omega, hwriter⟩
      by_contra hreader
      exact (hwriter .reader hreader).1 rfl
    · -- No message is there: nobody waits for a place.
      right
      have hwriter : ∀ j, j ≠ .reader → chat.Finished j := by
        intro j hj
        by_contra hfin
        obtain ⟨d, hd⟩ := (hidle j).resolve_left hfin
        rcases hwaits j d hd with ⟨rfl, -⟩ | ⟨-, hreader⟩
        · have := hd.2.2
          omega
        · exact hj hreader
      exact ⟨hwriter .userA (by decide), hwriter .userB (by decide), by omega, hwait⟩

/-- Nobody reads, and the user B has one message more than there is room for. -/
def tinyStuck : Chat User :=
  (Run.schedule (Chat.next 1) (Chat.start 1 tinyQueue (users 0 2 0))
    [.userB, .userB, .userB, .userB, .userB]).getD (Chat.start 1 tinyQueue (users 0 2 0))

/-- The user B has filled the queue of one place and waits, and there is no reader. -/
theorem stuckUsers_of_reaches_tiny : tinyStuck.Stuck 1 ∧ StuckUsers 1 tinyStuck := by
  have hrun : Chat.Reaches 1 (.start 1 tinyQueue (users 0 2 0)) tinyStuck :=
    Run.of_schedule [.userB, .userB, .userB, .userB, .userB] rfl
  have hstuck : tinyStuck.Stuck 1 := by
    refine ⟨⟨.userB, ?_⟩, fun i => by cases i <;> rfl⟩
    intro hfin
    exact absurd hfin.2 (by decide)
  exact ⟨hstuck, (stuckUsers_of_reaches 1 (by decide) tinyQueue 0 2 0 tinyStuck hrun).2 hstuck⟩

end Soi.Semafory
