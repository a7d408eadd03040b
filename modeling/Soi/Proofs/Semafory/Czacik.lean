import Soi.Lib.Run
import Soi.Lib.Threads
import Soi.Proofs.Semafory.Queue
import Soi.Semafory.Czacik

/-!
# `Soi.Proofs.Semafory.Czacik`: the queue has room and messages when the semaphores say so

`Turn` lists the steps of a process. `Inv` is the invariant of the runs. Its part `tokens` counts
the units of `full` and `empty`: each message in the queue is a unit of `full`, in the semaphore,
in the hands of a process that has not read it yet, or in the hands of the process that sent it
and has not done `up(full)` yet. The same holds of the places of the queue and `empty`. So a
process in front of `send_msg` has a place, and one in front of `read_msg` has a message
(`Inv.units_pos`).

`turn_inv` has one case for each step, and `usersSafe_of_reaches` is the result for the processes of
`main`.
-/

set_option autoImplicit false

namespace Soi.Semafory

open Soi.Lib

/-- The process is between `down(mutex)` and `up(mutex)`. -/
def Pc.critical : Pc → Bool
  | .body _ => true
  | .upMutex _ => true
  | _ => false

/-- The process has a unit of `c`: it took one that it has not used, or it made one that it has
not given back. -/
def Pc.holds (c : Sem) : Pc → Bool
  | .idle => false
  | .downMutex op => op.takes == c
  | .body op => op.takes == c
  | .upMutex op => op.gives == c
  | .upGives op => op.gives == c

/-- An operation does not give back what it takes: it moves a unit from one semaphore to the other.
-/
theorem Op.gives_ne (op : Op) : op.gives ≠ op.takes := by
  cases op <;> simp [Op.gives, Op.takes]

/-- There are no other semaphores than the one that an operation takes from and the one that it
gives to. -/
theorem Op.eq_or_eq (op : Op) (c : Sem) : c = op.takes ∨ c = op.gives := by
  cases op <;> cases c <;> simp [Op.gives, Op.takes]

/-- The units of a semaphore: messages, or places of the queue. -/
def Queue.units (n : Nat) (q : Queue) : Sem → Int
  | .full => q.size
  | .empty => n - q.size

section
variable {n : Nat} {q : Queue} {op : Op} {p : Process}

/-- A call of `send_msg` or `read_msg` makes of a unit of what it takes one of what it gives. -/
theorem units_use (n : Nat) (op : Op) (p : Process) (q : Queue) :
    (op.use n p q).2.units n op.takes = q.units n op.takes - 1 ∧
      (op.use n p q).2.units n op.gives = q.units n op.gives + 1 := by
  cases op with
  | send m =>
      have hsize : (q.sendMsg n m).size = q.size + 1 := Queue.size_sendMsg m
      show (n : Int) - (q.sendMsg n m).size = n - q.size - 1 ∧ (q.sendMsg n m).size = q.size + 1
      omega
  | read =>
      show q.size - 1 = q.size - 1 ∧ (n : Int) - (q.size - 1) = n - q.size + 1
      omega

/-- The queue stays well-formed when there is such a unit. -/
theorem use_valid (h : q.Valid n) (hpos : 0 < q.units n op.takes) : (op.use n p q).2.Valid n := by
  cases op with
  | send m =>
      have hsize : q.size < n := by
        simp only [Op.takes, Queue.units] at hpos
        omega
      exact (Queue.sendMsg_spec h hsize m).1
  | read => exact (Queue.readMsg_spec h hpos).1

/-- The message moves from the process to the queue or back. -/
theorem use_balance (h : q.Valid n) (hpos : 0 < q.units n op.takes) (m : Message) :
    (op.use n p q).1.got.count m + ((op.use n p q).2.contents n).count m + p.sent.count m
      = p.got.count m + (q.contents n).count m + (op.use n p q).1.sent.count m := by
  cases op with
  | send x =>
      have hsize : q.size < n := by
        simp only [Op.takes, Queue.units] at hpos
        omega
      have hcount : ((q.sendMsg n x).contents n).count m
          = (q.contents n).count m + [x].count m := by
        -- Front or back, the queue has the message once more.
        rw [(Queue.sendMsg_spec h hsize x).2]
        split_ifs
        · rw [← List.singleton_append, List.count_append, Nat.add_comm]
        · rw [List.count_append]
      simp only [Op.use, hcount, List.count_append]
      omega
  | read =>
      have hspec := (Queue.readMsg_spec h hpos).2
      simp only [Op.use, hspec, List.count_append, List.count_cons, List.count_nil]
      omega

end

namespace Chat

variable {ι : Type*} [DecidableEq ι] {n : Nat} {chat chat' : Chat ι} {i : ι}

/-! ### The steps -/

/-- The step of a process `i`, by its place. -/
inductive Turn (n : Nat) (chat : Chat ι) (i : ι) : Chat ι → Prop
  | take {op : Op} {ops : List Op} (hpc : (chat.proc i).pc = .idle)
      (hops : (chat.proc i).ops = op :: ops) (hsem : chat.sem op.takes ≠ 0) :
      Turn n chat i ((chat.setSem op.takes (chat.sem op.takes - 1)).setProc i
        { chat.proc i with pc := .downMutex op, ops })
  | downMutex {op : Op} (hpc : (chat.proc i).pc = .downMutex op) (hmutex : chat.mutex ≠ 0) :
      Turn n chat i
        { chat.setProc i { chat.proc i with pc := .body op } with mutex := chat.mutex - 1 }
  | body {op : Op} (hpc : (chat.proc i).pc = .body op) :
      Turn n chat i
        { chat.setProc i { (op.use n (chat.proc i) chat.queue).1 with pc := .upMutex op } with
          queue := (op.use n (chat.proc i) chat.queue).2 }
  | upMutex {op : Op} (hpc : (chat.proc i).pc = .upMutex op) :
      Turn n chat i
        { chat.setProc i { chat.proc i with pc := .upGives op } with mutex := chat.mutex + 1 }
  | give {op : Op} (hpc : (chat.proc i).pc = .upGives op) :
      Turn n chat i ((chat.setSem op.gives (chat.sem op.gives + 1)).setProc i
        { chat.proc i with pc := .idle })

/-- Each step of `next` is one of the steps in the list, with the semaphore that it found not to be
0. -/
theorem turn_of_next (h : chat.next n i = some chat') : Turn n chat i chat' := by
  rw [next] at h
  split at h
  · rename_i hpc
    split at h
    · cases h
    · rename_i hops
      split_ifs at h with hsem
      exact Option.some.inj h ▸ .take hpc hops hsem
  · rename_i hpc
    split_ifs at h with hmutex
    exact Option.some.inj h ▸ .downMutex hpc hmutex
  · rename_i hpc
    exact Option.some.inj h ▸ .body hpc
  · rename_i hpc
    exact Option.some.inj h ▸ .upMutex hpc
  · rename_i hpc
    exact Option.some.inj h ▸ .give hpc

variable [Fintype ι]

/-- `mutex`, and the processes that own it. -/
def owners (chat : Chat ι) : Nat := chat.mutex + count (fun p => p.pc.critical) chat.proc

/-- By how much the units in the semaphore and in the hands of the processes exceed the messages
or the places of the queue. -/
def drift (n : Nat) (chat : Chat ι) (c : Sem) : Int :=
  (chat.sem c + count (fun p => p.pc.holds c) chat.proc : Nat) - chat.queue.units n c

/-- A process that takes `mutex` owns it. -/
theorem turn_owners (hturn : Turn n chat i chat') : chat'.owners = chat.owners := by
  have hupdate : ∀ p : Process, chat'.proc = Function.update chat.proc i p →
      chat'.mutex + p.pc.critical.toNat = chat.mutex + (chat.proc i).pc.critical.toNat →
      chat'.owners = chat.owners := by
    intro p hproc hmutex
    have hcount := count_update (fun p : Process => p.pc.critical) chat.proc i p
    rw [owners, owners, hproc]
    omega
  cases hturn with
  | downMutex hpc hmutex =>
      refine hupdate _ rfl ?_
      rw [hpc]
      show chat.mutex - 1 + 1 = chat.mutex + 0
      omega
  | take hpc hops hsem =>
      refine hupdate _ rfl ?_
      rw [hpc]
      rfl
  | body hpc =>
      refine hupdate _ rfl ?_
      rw [hpc]
      rfl
  | upMutex hpc =>
      refine hupdate _ rfl ?_
      rw [hpc]
      rfl
  | give hpc =>
      refine hupdate _ rfl ?_
      rw [hpc]
      rfl

/-- A step makes and loses no unit, whatever is in the queue. -/
theorem turn_drift (hturn : Turn n chat i chat') (c : Sem) :
    chat'.drift n c = chat.drift n c := by
  have hupdate : ∀ p : Process, chat'.proc = Function.update chat.proc i p →
      ((chat'.sem c + (p.pc.holds c).toNat : Nat) : Int) - chat'.queue.units n c
        = ((chat.sem c + ((chat.proc i).pc.holds c).toNat : Nat) : Int)
          - chat.queue.units n c →
      chat'.drift n c = chat.drift n c := by
    intro p hproc hunits
    have hcount := count_update (fun p : Process => p.pc.holds c) chat.proc i p
    rw [drift, drift, hproc]
    omega
  cases hturn with
  | @take op ops hpc hops hsem =>
      refine hupdate _ rfl ?_
      rw [hpc]
      -- The unit goes from the semaphore to the process.
      by_cases hc : c = op.takes
      · subst hc
        simp only [setProc, setSem, Function.update_self, Pc.holds, beq_self_eq_true,
          Bool.toNat_true, Bool.toNat_false]
        omega
      · simp [setProc, setSem, Pc.holds, hc, Ne.symm hc]
  | downMutex hpc hmutex =>
      refine hupdate _ rfl ?_
      rw [hpc]
      rfl
  | @body op hpc =>
      refine hupdate _ rfl ?_
      rw [hpc]
      show ((chat.sem c + (op.gives == c).toNat : Nat) : Int)
          - (op.use n (chat.proc i) chat.queue).2.units n c
        = ((chat.sem c + (op.takes == c).toNat : Nat) : Int) - chat.queue.units n c
      -- The unit that the process has is now one of the other semaphore.
      obtain ⟨htakes, hgives⟩ := units_use n op (chat.proc i) chat.queue
      rcases op.eq_or_eq c with rfl | rfl
      · rw [htakes, beq_self_eq_true, beq_false_of_ne op.gives_ne, Bool.toNat_true,
          Bool.toNat_false]
        omega
      · rw [hgives, beq_self_eq_true, beq_false_of_ne op.gives_ne.symm, Bool.toNat_true,
          Bool.toNat_false]
        omega
  | upMutex hpc =>
      refine hupdate _ rfl ?_
      rw [hpc]
      rfl
  | @give op hpc =>
      refine hupdate _ rfl ?_
      rw [hpc]
      -- The unit goes from the process to the semaphore.
      by_cases hc : c = op.gives
      · subst hc
        simp [setProc, setSem, Pc.holds]
      · simp [setProc, setSem, Pc.holds, hc, Ne.symm hc]

/-! ### The invariant -/

/-- The invariant of the runs. -/
structure Inv (n : Nat) (chat : Chat ι) : Prop where
  valid : chat.queue.Valid n
  /-- `mutex` is free, or one process is in its critical section. -/
  mutex : chat.mutex + count (fun p => p.pc.critical) chat.proc = 1
  /-- Each unit of `full` or `empty` is in the semaphore or in the hands of a process. -/
  tokens : ∀ c, ((chat.sem c + count (fun p => p.pc.holds c) chat.proc : Nat) : Int)
    = chat.queue.units n c
  /-- No message is lost or doubled. -/
  total : ∀ m, ∑ j, (chat.proc j).got.count m + (chat.queue.contents n).count m
    = ∑ j, (chat.proc j).sent.count m

omit [DecidableEq ι] in
/-- A process in front of `send_msg` or `read_msg` has a unit of what it takes. -/
theorem Inv.units_pos (h : Inv n chat) {op : Op} (hpc : (chat.proc i).pc = .body op) :
    0 < chat.queue.units n op.takes := by
  have htokens := h.tokens op.takes
  have hpos : 0 < count (fun p : Process => p.pc.holds op.takes) chat.proc := by
    refine count_pos_of (P := fun p : Process => p.pc.holds op.takes) (i := i) ?_
    rw [hpc]
    exact beq_self_eq_true _
  omega

/-- A step of the process `i`, which becomes `p`. -/
theorem Inv.update (h : Inv n chat) (hturn : Turn n chat i chat') {p : Process}
    (hproc : chat'.proc = Function.update chat.proc i p) (hvalid : chat'.queue.Valid n)
    (htotal : ∀ m, p.got.count m + (chat'.queue.contents n).count m + (chat.proc i).sent.count m
      = (chat.proc i).got.count m + (chat.queue.contents n).count m + p.sent.count m) :
    Inv n chat' := by
  refine ⟨hvalid, (turn_owners hturn).trans h.mutex, ?_, ?_⟩
  · intro c
    have hdrift := turn_drift hturn c
    have htokens := h.tokens c
    rw [drift, drift] at hdrift
    omega
  · intro m
    rw [hproc]
    exact balance_update (fun p : Process => p.got.count m) (fun p => p.sent.count m) (h.total m)
      (htotal m)

/-- Each step keeps the invariant. -/
theorem turn_inv (h : Inv n chat) (hturn : Turn n chat i chat') : Inv n chat' := by
  have hsame := hturn
  cases hturn with
  | take hpc hops hsem => exact h.update hsame rfl h.valid fun m => rfl
  | downMutex hpc hmutex => exact h.update hsame rfl h.valid fun m => rfl
  | body hpc =>
      -- The process took a unit before `down(mutex)`, so the call is not made on a full or empty
      -- queue.
      have hpos := h.units_pos hpc
      exact h.update hsame rfl (use_valid h.valid hpos) (use_balance h.valid hpos)
  | upMutex hpc => exact h.update hsame rfl h.valid fun m => rfl
  | give hpc => exact h.update hsame rfl h.valid fun m => rfl

omit [DecidableEq ι] in
/-- The queue after `queue_init` is empty, `mutex` is free and nobody holds a unit. -/
theorem start_inv (hn : 0 < n) (q : Queue) (program : ι → List Op) :
    Inv n (start n q program) := by
  have hcount : ∀ P : Process → Bool, (∀ ops, P ⟨.idle, ops, [], []⟩ = false) →
      count P (start n q program).proc = 0 := fun P hP => count_eq_zero.mpr fun i => hP _
  refine ⟨Queue.queueInit_valid hn q, ?_, ?_, ?_⟩
  · rw [hcount _ fun ops => rfl]
    rfl
  · intro c
    rw [hcount _ fun ops => rfl]
    cases c with
    | full => rfl
    | empty => exact (Int.sub_zero _).symm
  · intro m
    simp [start, Queue.contents_queueInit]

/-- The invariant holds in each state of a run. -/
theorem reaches_inv (h : Inv n chat) (hrun : Reaches n chat chat') : Inv n chat' :=
  Run.invariant hrun h fun _ _ h ⟨_, hnext⟩ => turn_inv h (turn_of_next hnext)

/-! ### Safety -/

/-- What the semaphores promise, in each state that a run reached. -/
structure Safe (n : Nat) (chat : Chat ι) : Prop where
  /-- At most one process is between `down(mutex)` and `up(mutex)`. -/
  exclusive : ∀ i j, (chat.proc i).pc.critical = true → (chat.proc j).pc.critical = true → i = j
  /-- In front of `send_msg` the queue is not full, and the entry that it writes holds no unread
  message. -/
  sends : ∀ i m, (chat.proc i).pc = .body (.send m) → chat.queue.size < n ∧
    (chat.queue.sendMsg n m).table = Function.update chat.queue.table (chat.queue.sendSlot n m) m ∧
    ∀ k < chat.queue.size.toNat, slot n chat.queue.head k ≠ chat.queue.sendSlot n m
  /-- In front of `read_msg` the queue is not empty. -/
  reads : ∀ i, (chat.proc i).pc = .body .read → 0 < chat.queue.size
  /-- The indices are in the table. -/
  valid : chat.queue.Valid n
  /-- The messages that were read and the ones in the queue are the ones that were sent. -/
  total : ∑ i, ((chat.proc i).got : Multiset Message)
      + (chat.queue.contents n : Multiset Message)
    = ∑ i, ((chat.proc i).sent : Multiset Message)

/-- What the invariant means: one process at a time uses the queue, a sender has a place there and a
reader has a message. -/
theorem Inv.safe (h : Inv n chat) : Safe n chat := by
  have hsize : ∀ {i m}, (chat.proc i).pc = .body (.send m) → chat.queue.size < n := by
    intro i m hpc
    have hpos : 0 < (n : Int) - chat.queue.size := h.units_pos hpc
    omega
  refine ⟨?_, fun i m hpc => ⟨hsize hpc, Queue.table_sendMsg m, ?_⟩,
    fun i hpc => h.units_pos hpc, h.valid, ?_⟩
  · intro i j hi hj
    have := h.mutex
    exact eq_of_count_le_one (P := fun p : Process => p.pc.critical) (by omega) hi hj
  · exact Queue.sendSlot_free h.valid (hsize hpc) m
  · refine Multiset.ext.mpr ?_
    intro m
    simp only [Multiset.count_add, Multiset.count_sum', Multiset.coe_count]
    exact h.total m

end Chat

/-- `user_A`, `user_B` and `reader` with any numbers of messages, in any order of their steps, over
a queue of any size. -/
theorem usersSafe_of_reaches (bufferSize : Nat) (hpos : 0 < bufferSize) (q : Queue) (A B read : Nat)
    (chat : Chat User)
    (hrun : Chat.Reaches bufferSize (.start bufferSize q (users A B read)) chat) :
    chat.Safe bufferSize :=
  (Chat.reaches_inv (Chat.start_inv hpos q _) hrun).safe

/-! ### Two places -/

/-- Nothing is in the shared memory yet. -/
def tinyQueue : Queue := ⟨fun _ => ⟨0, 0, ' '⟩, 0, 0, 0⟩

/-- The user B has sent a message, and the user A is about to send one, which is the last place
of the queue. -/
def tinyChat : Chat User :=
  (Run.schedule (Chat.next 2) (Chat.start 2 tinyQueue (users 1 1 1))
    [.userB, .userB, .userB, .userB, .userB, .userA, .userA]).getD
    (Chat.start 2 tinyQueue (users 1 1 1))

/-- The schedule is a run. -/
theorem tinyChat_reached : Chat.Reaches 2 (.start 2 tinyQueue (users 1 1 1)) tinyChat :=
  Run.of_schedule [.userB, .userB, .userB, .userB, .userB, .userA, .userA] rfl

/-- The user A is about to send, behind a letter of the user B, and there is a place left. -/
theorem usersSafe_of_reaches_tiny :
    (tinyChat.proc .userA).pc = .body (.send ⟨1, 1, 'R'⟩) ∧ tinyChat.queue.size < 2 :=
  ⟨by decide, ((usersSafe_of_reaches 2 (by decide) tinyQueue 1 1 1 tinyChat tinyChat_reached).sends
    .userA ⟨1, 1, 'R'⟩ (by decide)).1⟩

end Soi.Semafory
