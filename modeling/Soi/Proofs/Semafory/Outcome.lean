import Mathlib.Algebra.BigOperators.Ring.Finset
import Soi.Lib.Delivery
import Soi.Lib.Work
import Soi.Proofs.Semafory.Deadlock
import Soi.Proofs.Semafory.History
import Soi.Proofs.Semafory.Main

/-!
# `Soi.Proofs.Semafory.Outcome`: where `czacik.c` ends

An operation takes five steps, so that each interleaving comes to an end. Where no process can take
a step, the semaphores count what is in the queue, and the numbers of the letters that were sent
and read are fixed by the arguments (`outcome_of_users`). `main` waits for all its children, and
so it returns when there is a letter for each one that the reader wants, and a place for the
others.
-/

set_option autoImplicit false

namespace Soi.Semafory

open Soi.Lib

/-- The steps that the current operation still takes. -/
def Pc.work : Pc → Nat
  | .idle => 0
  | .upGives _ => 1
  | .upMutex _ => 2
  | .body _ => 3
  | .downMutex _ => 4

/-- The steps that a process still takes. -/
def Process.work (p : Process) : Nat := p.pc.work + 5 * p.ops.length

namespace Chat

variable {ι : Type*} [DecidableEq ι] [Fintype ι] {n : Nat} {chat chat' : Chat ι} {i : ι} {q : Queue}
  {program : ι → List Op}

/-- The steps that all processes still take. -/
def work (chat : Chat ι) : Nat := ∑ i, (chat.proc i).work

/-- When one process does one step of its work, there is one step less to do. -/
theorem work_succ {p : Process} (hproc : chat'.proc = Function.update chat.proc i p)
    (hwork : p.work + 1 = (chat.proc i).work) : chat'.work + 1 = chat.work := by
  have hsum := sum_update Process.work chat.proc i p
  unfold work
  rw [hproc]
  omega

/-- Each step is paid. -/
theorem turn_work (hturn : Turn n chat i chat') : chat'.work + 1 = chat.work := by
  cases hturn with
  | take hpc hops hsem =>
      refine work_succ rfl ?_
      simp only [Process.work, hpc, hops, Pc.work, List.length_cons]
      omega
  | downMutex hpc hmutex =>
      refine work_succ rfl ?_
      simp only [Process.work, hpc, Pc.work]
      omega
  | @body op hpc =>
      refine work_succ rfl ?_
      cases op <;> simp only [Process.work, Op.use, hpc, Pc.work] <;> omega
  | upMutex hpc =>
      refine work_succ rfl ?_
      simp only [Process.work, hpc, Pc.work]
      omega
  | give hpc =>
      refine work_succ rfl ?_
      simp only [Process.work, hpc, Pc.work]
      omega

/-- The work of the processes pays for the steps. -/
theorem next_spends : Spends (next (ι := ι) n) work := by
  intro chat i chat' hnext
  have hwork := turn_work (turn_of_next hnext)
  omega

omit [DecidableEq ι] in
/-- At the start there are five steps to do for each operation. -/
theorem work_start : (start n q program).work = 5 * ∑ i, (program i).length := by
  rw [Finset.mul_sum]
  exact Finset.sum_congr rfl fun i _ => Nat.zero_add _

/-- The operations of the programs, for the mailbox. -/
def callsOf (program : ι → List Op) (i : ι) : List (Call Message) := (program i).map Op.toLib

/-- The end of a run: as many messages as possible were sent and read, and who has not finished
waits. The semaphores are as `main` would set them for this queue. -/
structure Ending (n : Nat) (program : ι → List Op) (chat : Chat ι) : Prop where
  got : ∑ i, (chat.proc i).got.length
    = min (allReads (callsOf program)) (allSends (callsOf program))
  sent : ∑ i, (chat.proc i).sent.length
    = min (allSends (callsOf program)) (allReads (callsOf program) + n)
  finished : (∀ i, chat.Finished i) ↔
    allReads (callsOf program) ≤ allSends (callsOf program) ∧
      allSends (callsOf program) ≤ allReads (callsOf program) + n
  mutex : chat.mutex = 1
  full : chat.sem .full = (chat.queue.contents n).length
  empty : chat.sem .empty = n - (chat.queue.contents n).length

/-- Where no process can take a step, the operations that are left wait for the queue, which is full
or empty. -/
theorem ending_of_run (hn : 0 < n) (hone : OneRole (callsOf program)) {schedule : List ι}
    (hrun : Run.schedule (next n) (start n q program) schedule = some chat)
    (hstuck : ∀ i, chat.next n i = none) : Ending n program chat := by
  obtain ⟨events, -, hlinear⟩ := linearized_deque hn hrun
  have h := reaches_inv (start_inv hn q program) (Run.of_schedule schedule hrun)
  obtain ⟨hmutex, hidle⟩ := Stuck.idle h hstuck
  have hlength := Queue.length_contents h.valid
  have hfull : (chat.sem .full : Int) = chat.queue.size := Stuck.sem_eq h hstuck .full
  have hempty : (chat.sem .empty : Int) = n - chat.queue.size := Stuck.sem_eq h hstuck .empty
  -- What a process has left, it has not started.
  have hleft : ∀ i, Process.view.left (chat.proc i) = (chat.proc i).ops.map Op.toLib := by
    intro i
    have hpc : (chat.proc i).pc = .idle := (hidle i).elim And.left fun ⟨_, hwait⟩ => hwait.1
    show (chat.proc i).left.map Op.toLib = _
    unfold Process.left
    rw [hpc]
  -- It has found its semaphore at 0.
  have hwaits : ∀ i op rest, (chat.proc i).ops = op :: rest → chat.sem op.takes = 0 := by
    intro i op rest hops
    rcases hidle i with hfin | ⟨c, -, ⟨op', ops, hops', rfl⟩, hzero⟩
    · rw [hfin.2] at hops
      cases hops
    · rw [hops] at hops'
      rw [(List.cons.inj hops').1]
      exact hzero
  -- With no process in its hands, a semaphore at 0 says that the queue is full or empty.
  have hsending : ∀ i m rest, Process.view.left (chat.proc i) = .send m :: rest →
      (chat.queue.contents n).length = n := by
    intro i m rest hcons
    rw [hleft] at hcons
    obtain ⟨op, ops, hops, hop, -⟩ := List.map_eq_cons_iff.mp hcons
    cases op with
    | send m' =>
        have hzero : chat.sem .empty = 0 := hwaits i _ _ hops
        omega
    | read => cases hop
  have hreading : ∀ i rest, Process.view.left (chat.proc i) = .read :: rest →
      (chat.queue.contents n).length = 0 := by
    intro i rest hcons
    rw [hleft] at hcons
    obtain ⟨op, ops, hops, hop, -⟩ := List.map_eq_cons_iff.mp hcons
    cases op with
    | send m' => cases hop
    | read =>
        have hzero : chat.sem .full = 0 := hwaits i _ _ hops
        omega
  obtain ⟨hgot, hsent, hfinished⟩ := hlinear.delivered (fun _ => rfl) (fun _ => rfl) hone hn
    (by omega) (balance_length h.total) hsending hreading
  refine ⟨hgot, hsent, Iff.trans ?_ hfinished, hmutex, by omega, by omega⟩
  refine forall_congr' fun i => ?_
  rw [hleft, List.map_eq_nil_iff]
  exact ⟨And.right, fun hnil => ⟨(hidle i).elim And.left fun ⟨_, hwait⟩ => hwait.1, hnil⟩⟩

end Chat

/-! ### The arguments -/

/-- A sum over the three users. -/
theorem sum_user (f : User → Nat) : ∑ i, f i = f .userA + f .userB + f .reader := by
  have huniv : (Finset.univ : Finset User) = {.userA, .userB, .reader} := rfl
  rw [huniv, Finset.sum_insert (by decide), Finset.sum_insert (by decide), Finset.sum_singleton]
  exact (Nat.add_assoc _ _ _).symm

section
variable (A B read : Nat)

/-- The users A and B only send, and the reader only reads. -/
theorem oneRole_users : OneRole (Chat.callsOf (users A B read)) := by
  intro i
  cases i with
  | userA => exact Or.inl (by rw [Chat.callsOf, users, userA, toLib_sendingUser, reads_map_send])
  | userB => exact Or.inl (by rw [Chat.callsOf, users, userB, toLib_sendingUser, reads_map_send])
  | reader => exact Or.inr (by rw [Chat.callsOf, users, toLib_reader, sends_replicate_read])

/-- What is sent are the letters of the two users. -/
theorem allSends_users : allSends (Chat.callsOf (users A B read)) = A + B := by
  unfold allSends Chat.callsOf
  rw [sum_user]
  simp only [users, userA, userB, toLib_sendingUser, toLib_reader, sends_map_send,
    sends_replicate_read, List.length_map, List.length_range, List.length_nil]
  omega

/-- What is read are the letters for the reader. -/
theorem allReads_users : allReads (Chat.callsOf (users A B read)) = read := by
  unfold allReads Chat.callsOf
  rw [sum_user]
  simp only [users, userA, userB, toLib_sendingUser, toLib_reader, reads_map_send,
    reads_replicate_read]
  omega

/-- The programs have an operation for each letter that is sent or read. -/
theorem length_users : ∑ i, (users A B read i).length = A + B + read := by
  rw [sum_user]
  simp [users, userA, userB, reader, sendingUser]

/-- In each state of a run the reader has sent nothing, and the two users have read nothing. -/
theorem sent_reader {n : Nat} {q : Queue} {schedule : List User} {chat : Chat User} (hn : 0 < n)
    (hrun : Run.schedule (Chat.next n) (Chat.start n q (users A B read)) schedule = some chat) :
    (chat.proc .reader).sent = [] ∧ (chat.proc .userA).got = [] ∧ (chat.proc .userB).got = [] := by
  obtain ⟨events, -, hlinear⟩ := Chat.linearized_deque hn hrun
  have hsent := hlinear.sent_left (i := .reader) rfl
  have hgotA := hlinear.got_left (i := .userA) rfl
  have hgotB := hlinear.got_left (i := .userB) rfl
  have hreader : sends (Process.view.left ((Chat.start n q (users A B read)).proc .reader))
      = [] := by
    show sends ((reader read).map Op.toLib) = []
    rw [toLib_reader, sends_replicate_read]
  have huserA : reads (Process.view.left ((Chat.start n q (users A B read)).proc .userA)) = 0 := by
    show reads ((userA A).map Op.toLib) = 0
    rw [userA, toLib_sendingUser, reads_map_send]
  have huserB : reads (Process.view.left ((Chat.start n q (users A B read)).proc .userB)) = 0 := by
    show reads ((userB B).map Op.toLib) = 0
    rw [userB, toLib_sendingUser, reads_map_send]
  rw [hreader] at hsent
  rw [huserA] at hgotA
  rw [huserB] at hgotB
  exact ⟨(List.append_eq_nil_iff.mp hsent).1,
    List.length_eq_zero_iff.mp (Nat.add_eq_zero_iff.mp hgotA).1,
    List.length_eq_zero_iff.mp (Nat.add_eq_zero_iff.mp hgotB).1⟩

end

/-- The end of a first run with these arguments. -/
structure Settled (n A B read : Nat) (chat : Chat User) : Prop where
  got : (chat.proc .reader).got.length = min read (A + B)
  sent : (chat.proc .userA).sent.length + (chat.proc .userB).sent.length = min (A + B) (read + n)
  /-- The children have exited, and `main` returns. -/
  finished : (∀ i, chat.Finished i) ↔ read ≤ A + B ∧ A + B ≤ read + n
  /-- What it leaves for the next run. -/
  queue : chat.queue.size = (min (A + B) (read + n) - min read (A + B) : Nat)
  mutex : chat.mutex = 1
  full : (chat.sem .full : Int) = chat.queue.size
  empty : (chat.sem .empty : Int) = n - chat.queue.size

/-- The first run of `main`: all interleavings of its children end, after at most five steps for
each letter, and the arguments say how. -/
theorem outcome_of_users (n : Nat) (hn : 0 < n) (q : Queue) (A B read : Int) :
    Outcome (Chat.next n) ((Ipc.fresh q).main n A B read)
      (5 * (A.toNat + B.toNat + read.toNat)) (Settled n A.toNat B.toNat read.toNat) := by
  rw [Ipc.main_eq_start (Or.inl ⟨rfl, rfl, rfl⟩) (Or.inl rfl),
    ← length_users A.toNat B.toNat read.toNat,
    ← Chat.work_start (n := n) (q := (Ipc.fresh q).queue)]
  refine Outcome.of_work Chat.next_spends ?_
  intro schedule chat hschedule hended
  obtain ⟨hgot, hsent, hfinished, hmutex, hfull, hempty⟩ :=
    Chat.ending_of_run hn (oneRole_users _ _ _) hschedule hended
  have h := Chat.reaches_inv (Chat.start_inv hn q _) (Run.of_schedule schedule hschedule)
  have hlength := Queue.length_contents h.valid
  have hbalance := balance_length h.total
  -- In the sums over the users the reader sends nothing, and the others read nothing.
  obtain ⟨hreader, hgotA, hgotB⟩ := sent_reader _ _ _ hn hschedule
  rw [allSends_users, allReads_users] at hgot hsent hfinished
  rw [sum_user] at hgot hsent hbalance
  rw [sum_user fun i => (chat.proc i).sent.length] at hbalance
  rw [hgotA, hgotB] at hgot hbalance
  rw [hreader] at hsent hbalance
  simp only [List.length_nil] at hgot hsent hbalance
  have hle := h.valid.size_le
  exact ⟨by omega, by omega, hfinished, by omega, hmutex, by omega, by omega⟩

/-- Two letters of each user for a reader that wants three. -/
theorem outcome_of_users_six :
    Outcome (Chat.next 6) ((Ipc.fresh tinyQueue).main 6 2 2 3) 35 (Settled 6 2 2 3) :=
  outcome_of_users 6 (by decide) tinyQueue 2 2 3

end Soi.Semafory
