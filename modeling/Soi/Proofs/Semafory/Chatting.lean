import Soi.Lib.Threads
import Soi.Proofs.Semafory.Czacik
import Soi.Semafory.Chatting

/-!
# `Soi.Proofs.Semafory.Chatting`: when the users of `chatting.c` deadlock

A writer waits for `empty` while it owns `mutex`, and the reader needs `mutex` to post `empty`. So
all depends on whether a writer ever finds `empty` at 0. `Inv` counts the units of `full` and
`empty` as in `czacik.c`, from the values that the semaphores had at the start, and its part `left`
counts the messages still to be sent. When there are no more messages than places at the start,
a writer with `mutex` finds a place (`Inv.empty_ne_zero`). When there is one message more, the
writers fill all places before the first read (`exists_filled`), and the next one closes the cycle.

`usersSafe_iff` is the exact condition, in the numbers of messages and the values at the start.
-/

set_option autoImplicit false

namespace Soi.Semafory.Chatting

open Soi.Lib

/-- The process owns `mutex`. -/
def Pc.critical : Pc → Bool
  | .idle => false
  | .waitMutex => false
  | _ => true

/-- The process has a unit of `c`: it took one that it has not used, or it made one that it has
not given back. -/
def Pc.holds (c : Sem) : Pc → Bool
  | .waitMutex => Sem.full == c
  | .body op => op.takes == c
  | .postGives op => op.gives == c
  | _ => false

/-- The process has a message in hand that it has not sent. -/
def Pc.sending : Pc → Bool
  | .waitEmpty _ => true
  | .body (.send _) => true
  | _ => false

/-- The messages that a process has still to send. -/
def Process.left (p : Process) : Nat :=
  p.ops.countP (fun op => op.takes == .empty) + p.pc.sending.toNat

/-- The units of a semaphore, when `full` was `full₀` at the start and the queue was empty. -/
def units (n full₀ : Nat) (q : Queue) : Sem → Int
  | .full => q.size + full₀
  | .empty => n - (q.size + full₀)

/-- A call takes a unit, whatever is in the queue, and makes one of the other semaphore. -/
theorem units_useQueue (n full₀ : Nat) (q : Queue) (op : Op) :
    units n full₀ (op.useQueue n q) op.takes = units n full₀ q op.takes - 1 ∧
      units n full₀ (op.useQueue n q) op.gives = units n full₀ q op.gives + 1 := by
  cases op with
  | send m =>
      simp only [Op.useQueue, Op.takes, Op.gives, units, Queue.size_sendMsg]
      omega
  | read =>
      simp only [Op.useQueue, Op.takes, Op.gives, units, Queue.readMsg]
      omega

section
variable {ι : Type*} [DecidableEq ι] {n full₀ total : Nat} {chat chat' : Chatting ι} {i j : ι}

/-- The process has done all that it had to do. -/
def Finished (chat : Chatting ι) (i : ι) : Prop :=
  (chat.proc i).pc = .idle ∧ (chat.proc i).ops = []

/-! ### The steps -/

/-- The step of a process `i`, by its place. -/
inductive Turn (n : Nat) (chat : Chatting ι) (i : ι) : Chatting ι → Prop
  | lock {m : Message} {ops : List Op} (hpc : (chat.proc i).pc = .idle)
      (hops : (chat.proc i).ops = .send m :: ops) (hmutex : chat.mutex ≠ 0) :
      Turn n chat i { chat.setProc i ⟨.waitEmpty m, ops⟩ with mutex := chat.mutex - 1 }
  | takeFull {ops : List Op} (hpc : (chat.proc i).pc = .idle)
      (hops : (chat.proc i).ops = .read :: ops) (hfull : chat.sem .full ≠ 0) :
      Turn n chat i ((chat.setSem .full (chat.sem .full - 1)).setProc i ⟨.waitMutex, ops⟩)
  | takeEmpty {m : Message} (hpc : (chat.proc i).pc = .waitEmpty m)
      (hempty : chat.sem .empty ≠ 0) :
      Turn n chat i ((chat.setSem .empty (chat.sem .empty - 1)).setProc i
        ⟨.body (.send m), (chat.proc i).ops⟩)
  | lockReader (hpc : (chat.proc i).pc = .waitMutex) (hmutex : chat.mutex ≠ 0) :
      Turn n chat i
        { chat.setProc i ⟨.body .read, (chat.proc i).ops⟩ with mutex := chat.mutex - 1 }
  | body {op : Op} (hpc : (chat.proc i).pc = .body op) :
      Turn n chat i { chat.setProc i ⟨.postGives op, (chat.proc i).ops⟩ with
        queue := op.useQueue n chat.queue }
  | give {op : Op} (hpc : (chat.proc i).pc = .postGives op) :
      Turn n chat i ((chat.setSem op.gives (chat.sem op.gives + 1)).setProc i
        ⟨.postMutex op, (chat.proc i).ops⟩)
  | unlock {op : Op} (hpc : (chat.proc i).pc = .postMutex op) :
      Turn n chat i { chat.setProc i ⟨.idle, (chat.proc i).ops⟩ with mutex := chat.mutex + 1 }

/-- Each step of `next` is one of the steps in the list. -/
theorem turn_of_next (h : chat.next n i = some chat') : Turn n chat i chat' := by
  rw [next] at h
  split at h
  · rename_i hpc
    split at h
    · cases h
    · rename_i hops
      split_ifs at h with hmutex
      exact Option.some.inj h ▸ .lock hpc hops hmutex
    · rename_i hops
      split_ifs at h with hfull
      exact Option.some.inj h ▸ .takeFull hpc hops hfull
  · rename_i hpc
    split_ifs at h with hempty
    exact Option.some.inj h ▸ .takeEmpty hpc hempty
  · rename_i hpc
    split_ifs at h with hmutex
    exact Option.some.inj h ▸ .lockReader hpc hmutex
  · rename_i hpc
    exact Option.some.inj h ▸ .body hpc
  · rename_i hpc
    exact Option.some.inj h ▸ .give hpc
  · rename_i hpc
    exact Option.some.inj h ▸ .unlock hpc

/-- Each of the steps in the list is a step of `next`, so that the list can be used to make a run.
-/
theorem Turn.next (h : Turn n chat i chat') : chat.next n i = some chat' := by
  cases h with
  | lock hpc hops hmutex => simp [Chatting.next, hpc, hops, hmutex]
  | takeFull hpc hops hfull => simp [Chatting.next, hpc, hops, hfull]
  | takeEmpty hpc hempty => simp [Chatting.next, hpc, hempty]
  | lockReader hpc hmutex => simp [Chatting.next, hpc, hmutex]
  | body hpc => simp [Chatting.next, hpc]
  | give hpc => simp [Chatting.next, hpc]
  | unlock hpc => simp [Chatting.next, hpc]

/-- A step is a run. -/
theorem Turn.reaches (h : Turn n chat i chat') : Reaches n chat chat' :=
  .single ⟨i, h.next⟩

/-! ### What a step changes -/

variable [Fintype ι]

/-- `mutex`, and the processes that own it. -/
def owners (chat : Chatting ι) : Nat := chat.mutex + count (fun p => p.pc.critical) chat.proc

/-- By how much the units in the semaphore and in the hands of the processes exceed those of the
queue. -/
def drift (n full₀ : Nat) (chat : Chatting ι) (c : Sem) : Int :=
  (chat.sem c + count (fun p => p.pc.holds c) chat.proc : Nat) - units n full₀ chat.queue c

/-- The messages in the queue and the ones still to be sent. -/
def load (chat : Chatting ι) : Int := chat.queue.size + (∑ j, (chat.proc j).left : Nat)

/-- A process that takes `mutex` owns it. -/
theorem turn_owners (hturn : Turn n chat i chat') : chat'.owners = chat.owners := by
  have hupdate : ∀ p : Process, chat'.proc = Function.update chat.proc i p →
      chat'.mutex + p.pc.critical.toNat = chat.mutex + (chat.proc i).pc.critical.toNat →
      chat'.owners = chat.owners := by
    intro p hproc hmutex
    have hcount := count_update (fun p : Process => p.pc.critical) chat.proc i p
    rw [owners, owners, hproc]
    omega
  cases hturn with
  | lock hpc hops hmutex =>
      refine hupdate _ rfl ?_
      rw [hpc]
      show chat.mutex - 1 + 1 = chat.mutex + 0
      omega
  | lockReader hpc hmutex =>
      refine hupdate _ rfl ?_
      rw [hpc]
      show chat.mutex - 1 + 1 = chat.mutex + 0
      omega
  | takeFull hpc hops hfull =>
      refine hupdate _ rfl ?_
      rw [hpc]
      rfl
  | takeEmpty hpc hempty =>
      refine hupdate _ rfl ?_
      rw [hpc]
      rfl
  | body hpc =>
      refine hupdate _ rfl ?_
      rw [hpc]
      rfl
  | give hpc =>
      refine hupdate _ rfl ?_
      rw [hpc]
      rfl
  | unlock hpc =>
      refine hupdate _ rfl ?_
      rw [hpc]
      rfl

/-- A step makes and loses no unit. -/
theorem turn_drift (hturn : Turn n chat i chat') (c : Sem) :
    chat'.drift n full₀ c = chat.drift n full₀ c := by
  have hupdate : ∀ p : Process, chat'.proc = Function.update chat.proc i p →
      ((chat'.sem c + (p.pc.holds c).toNat : Nat) : Int) - units n full₀ chat'.queue c
        = ((chat.sem c + ((chat.proc i).pc.holds c).toNat : Nat) : Int)
          - units n full₀ chat.queue c →
      chat'.drift n full₀ c = chat.drift n full₀ c := by
    intro p hproc hunits
    have hcount := count_update (fun p : Process => p.pc.holds c) chat.proc i p
    rw [drift, drift, hproc]
    omega
  cases hturn with
  | lock hpc hops hmutex =>
      refine hupdate _ rfl ?_
      rw [hpc]
      rfl
  | takeFull hpc hops hfull =>
      refine hupdate _ rfl ?_
      rw [hpc]
      cases c with
      | full =>
          show ((chat.sem .full - 1 + 1 : Nat) : Int) - _ = ((chat.sem .full + 0 : Nat) : Int) - _
          rw [Nat.sub_add_cancel (Nat.pos_of_ne_zero hfull)]
          rfl
      | empty => rfl
  | takeEmpty hpc hempty =>
      refine hupdate _ rfl ?_
      rw [hpc]
      cases c with
      | full => rfl
      | empty =>
          show ((chat.sem .empty - 1 + 1 : Nat) : Int) - _ = ((chat.sem .empty + 0 : Nat) : Int) - _
          rw [Nat.sub_add_cancel (Nat.pos_of_ne_zero hempty)]
          rfl
  | lockReader hpc hmutex =>
      refine hupdate _ rfl ?_
      rw [hpc]
      rfl
  | @body op hpc =>
      refine hupdate _ rfl ?_
      rw [hpc]
      show ((chat.sem c + (op.gives == c).toNat : Nat) : Int)
          - units n full₀ (op.useQueue n chat.queue) c
        = ((chat.sem c + (op.takes == c).toNat : Nat) : Int) - units n full₀ chat.queue c
      -- The unit that the process has is now one of the other semaphore.
      obtain ⟨htakes, hgives⟩ := units_useQueue n full₀ chat.queue op
      rcases op.eq_or_eq c with rfl | rfl
      · rw [htakes, beq_self_eq_true, beq_false_of_ne op.gives_ne, Bool.toNat_true,
          Bool.toNat_false]
        omega
      · rw [hgives, beq_self_eq_true, beq_false_of_ne op.gives_ne.symm, Bool.toNat_true,
          Bool.toNat_false]
        omega
  | @give op hpc =>
      refine hupdate _ rfl ?_
      rw [hpc]
      by_cases hc : c = op.gives
      · subst hc
        simp [setProc, setSem, Pc.holds]
      · simp [setProc, setSem, Pc.holds, hc, Ne.symm hc]
  | unlock hpc =>
      refine hupdate _ rfl ?_
      rw [hpc]
      rfl

/-- A step makes no message. -/
theorem turn_load (hturn : Turn n chat i chat') : chat'.load ≤ chat.load := by
  have hupdate : ∀ p : Process, chat'.proc = Function.update chat.proc i p →
      chat'.queue.size + p.left ≤ chat.queue.size + (chat.proc i).left →
      chat'.load ≤ chat.load := by
    intro p hproc hleft
    have hsum := sum_update Process.left chat.proc i p
    rw [load, load, hproc]
    omega
  cases hturn with
  | lock hpc hops hmutex =>
      -- The message leaves the list of what is to be done, but it is still in hand.
      refine hupdate _ rfl ?_
      simp [Process.left, setProc, hpc, hops, Pc.sending, Op.takes]
  | takeFull hpc hops hfull =>
      refine hupdate _ rfl ?_
      simp [Process.left, setProc, setSem, hpc, hops, Pc.sending, Op.takes]
  | takeEmpty hpc hempty =>
      refine hupdate _ rfl ?_
      simp [Process.left, setProc, setSem, hpc, Pc.sending]
  | lockReader hpc hmutex =>
      refine hupdate _ rfl ?_
      simp [Process.left, setProc, hpc, Pc.sending]
  | @body op hpc =>
      refine hupdate _ rfl ?_
      cases op with
      | send m =>
          simp only [Process.left, hpc, Pc.sending, Op.useQueue, Queue.size_sendMsg,
            Bool.toNat_true, Bool.toNat_false]
          omega
      | read =>
          simp only [Process.left, hpc, Pc.sending, Op.useQueue, Queue.readMsg, Bool.toNat_false]
          omega
  | give hpc =>
      refine hupdate _ rfl ?_
      simp [Process.left, setProc, setSem, hpc, Pc.sending]
  | unlock hpc =>
      refine hupdate _ rfl ?_
      simp [Process.left, setProc, hpc, Pc.sending]

/-! ### The invariant -/

/-- The invariant of the runs. -/
structure Inv (n full₀ total : Nat) (chat : Chatting ι) : Prop where
  /-- `mutex` is free, or one process owns it. -/
  mutex : chat.mutex + count (fun p => p.pc.critical) chat.proc = 1
  /-- Each unit of `full` or `empty` is in the semaphore or in the hands of a process. -/
  tokens : ∀ c, ((chat.sem c + count (fun p => p.pc.holds c) chat.proc : Nat) : Int)
    = units n full₀ chat.queue c
  /-- The messages in the queue and the ones still to be sent. -/
  left : chat.queue.size + (∑ j, (chat.proc j).left : Nat) ≤ total

/-- Each step keeps the invariant. -/
theorem turn_inv (h : Inv n full₀ total chat) (hturn : Turn n chat i chat') :
    Inv n full₀ total chat' := by
  refine ⟨(turn_owners hturn).trans h.mutex, ?_, (turn_load hturn).trans h.left⟩
  intro c
  have hdrift : chat'.drift n full₀ c = chat.drift n full₀ c := turn_drift hturn c
  have htokens := h.tokens c
  rw [drift, drift] at hdrift
  omega

omit [DecidableEq ι] in
/-- At the start nobody holds a unit, so that `full` and `empty` have all of them. -/
theorem start_inv {empty : Nat} (hn : full₀ + empty = n) (q : Queue) (program : ι → List Op)
    (htotal : ∑ j, (program j).countP (fun op => op.takes == .empty) ≤ total) :
    Inv n full₀ total (start full₀ empty q program) := by
  have hcount : ∀ P : Process → Bool, (∀ ops, P ⟨.idle, ops⟩ = false) →
      count P (start full₀ empty q program).proc = 0 := fun P hP => count_eq_zero.mpr fun i => hP _
  refine ⟨?_, ?_, ?_⟩
  · rw [hcount _ fun ops => rfl]
    rfl
  · intro c
    rw [hcount _ fun ops => rfl]
    cases c with
    | full =>
        show ((full₀ + 0 : Nat) : Int) = 0 + full₀
        omega
    | empty =>
        show ((empty + 0 : Nat) : Int) = n - (0 + full₀)
        omega
  · show (0 : Int) + (∑ j, ((program j).countP _ + 0) : Nat) ≤ total
    simp only [Nat.add_zero]
    omega

/-- The invariant holds in each state of a run. -/
theorem reaches_inv (h : Inv n full₀ total chat) (hrun : Reaches n chat chat') :
    Inv n full₀ total chat' :=
  Run.invariant hrun h fun _ _ h ⟨_, hnext⟩ => turn_inv h (turn_of_next hnext)

/-! ### Enough places -/

/-- A writer with `mutex` finds a place, when there are no more messages than places. -/
theorem Inv.empty_ne_zero (h : Inv n full₀ total chat) (htotal : total + full₀ ≤ n) {m : Message}
    (hpc : (chat.proc i).pc = .waitEmpty m) : chat.sem .empty ≠ 0 := by
  have hmutex := h.mutex
  have hempty : ((chat.sem .empty + count (fun p => p.pc.holds .empty) chat.proc : Nat) : Int)
      = n - (chat.queue.size + full₀) := h.tokens .empty
  have hcritical : (chat.proc i).pc.critical = true := by
    rw [hpc]
    rfl
  -- Only an owner of `mutex` has a unit of `empty`, and the owner is `i`.
  have hcount : count (fun p : Process => p.pc.holds .empty) chat.proc = 0 := by
    refine count_eq_zero.mpr ?_
    intro j
    by_contra hholds
    have hj : (chat.proc j).pc.critical = true := by
      cases hpcj : (chat.proc j).pc with
      | waitMutex =>
          rw [hpcj] at hholds
          exact absurd rfl hholds
      | idle =>
          rw [hpcj] at hholds
          exact absurd rfl hholds
      | _ => rfl
    have hij : i = j :=
      eq_of_count_le_one (P := fun p : Process => p.pc.critical) (by omega) hcritical hj
    subst hij
    rw [hpc] at hholds
    exact hholds rfl
  -- The message in hand is one of those that are not in the queue.
  have hleft : (chat.proc i).left ≤ ∑ j, (chat.proc j).left :=
    Finset.single_le_sum (f := fun j => (chat.proc j).left) (fun _ _ => Nat.zero_le _)
      (Finset.mem_univ i)
  have hone : 1 ≤ (chat.proc i).left := by
    rw [Process.left, hpc]
    exact Nat.le_add_left _ _
  have hsum := h.left
  omega

/-- Somebody has a step, when there are no more messages than places, a process is not finished,
and the queue is not empty. -/
theorem Inv.exists_next (h : Inv n full₀ total chat) (htotal : total + full₀ ≤ n)
    (hfin : ¬ chat.Finished i) (hsize : 0 < chat.queue.size) :
    ∃ j chat', chat.next n j = some chat' := by
  by_cases hcritical : ∃ j, (chat.proc j).pc.critical = true
  · obtain ⟨j, hj⟩ := hcritical
    cases hpc : (chat.proc j).pc with
    | idle =>
        rw [hpc] at hj
        cases hj
    | waitMutex =>
        rw [hpc] at hj
        cases hj
    | waitEmpty m => exact ⟨j, _, (Turn.takeEmpty hpc (h.empty_ne_zero htotal hpc)).next⟩
    | body op => exact ⟨j, _, (Turn.body hpc).next⟩
    | postGives op => exact ⟨j, _, (Turn.give hpc).next⟩
    | postMutex op => exact ⟨j, _, (Turn.unlock hpc).next⟩
  · have hnone : ∀ j, (chat.proc j).pc.critical = false := by
      intro j
      exact Bool.eq_false_iff.mpr fun hj => hcritical ⟨j, hj⟩
    have hmutex : chat.mutex ≠ 0 := by
      have := h.mutex
      have hcount : count (fun p : Process => p.pc.critical) chat.proc = 0 :=
        count_eq_zero.mpr hnone
      omega
    have hplace : ∀ j, (chat.proc j).pc = .idle ∨ (chat.proc j).pc = .waitMutex := by
      intro j
      have := hnone j
      cases hpc : (chat.proc j).pc with
      | idle => exact Or.inl rfl
      | waitMutex => exact Or.inr rfl
      | _ =>
          rw [hpc] at this
          cases this
    by_cases hwait : ∃ j, (chat.proc j).pc = .waitMutex
    · obtain ⟨j, hj⟩ := hwait
      exact ⟨j, _, (Turn.lockReader hj hmutex).next⟩
    · have hidle : ∀ j, (chat.proc j).pc = .idle := fun j =>
        (hplace j).resolve_right fun hj => hwait ⟨j, hj⟩
      -- Nobody has a unit of `full`, so all of them are in the semaphore.
      have hfull : chat.sem .full ≠ 0 := by
        have htokens : ((chat.sem .full + count (fun p => p.pc.holds .full) chat.proc : Nat) : Int)
            = chat.queue.size + full₀ := h.tokens .full
        have hcount : count (fun p : Process => p.pc.holds .full) chat.proc = 0 := by
          refine count_eq_zero.mpr ?_
          intro j
          rw [hidle j]
          rfl
        omega
      cases hops : (chat.proc i).ops with
      | nil => exact absurd ⟨hidle i, hops⟩ hfin
      | cons op ops =>
          cases op with
          | send m => exact ⟨i, _, (Turn.lock (hidle i) hops hmutex).next⟩
          | read => exact ⟨i, _, (Turn.takeFull (hidle i) hops hfull).next⟩

end

/-! ### One message too many -/

section
variable {ι : Type*} [DecidableEq ι] {n : Nat} {chat : Chatting ι} {i : ι} {m : Message}

/-- A writer alone sends a message, from `sem_wait(mutex)` to `sem_post(mutex)`. -/
theorem send_one {ops : List Op} {e : Nat} (hmutex : chat.mutex = 1)
    (hproc : chat.proc i = ⟨.idle, .send m :: ops⟩) (hempty : chat.sem .empty = e + 1) :
    ∃ chat', Reaches n chat chat' ∧ chat'.mutex = 1 ∧ chat'.sem .empty = e ∧
      chat'.sem .full = chat.sem .full + 1 ∧
      chat'.proc = Function.update chat.proc i ⟨.idle, ops⟩ := by
  have hrun : ∃ chat', Run.schedule (Chatting.next n) chat [i, i, i, i, i] = some chat' ∧
      chat'.mutex = 1 ∧ chat'.sem .empty = e ∧ chat'.sem .full = chat.sem .full + 1 ∧
      chat'.proc = Function.update chat.proc i ⟨.idle, ops⟩ := by
    simp [Run.schedule, Chatting.next, hproc, hmutex, hempty, setProc, setSem, Op.gives]
  obtain ⟨chat', hrun, hrest⟩ := hrun
  exact ⟨chat', Run.of_schedule _ hrun, hrest⟩

/-- A writer alone sends some of its messages. -/
theorem send_many {k r e : Nat} (hmutex : chat.mutex = 1)
    (hproc : chat.proc i = ⟨.idle, List.replicate (k + r) (.send m)⟩)
    (hempty : chat.sem .empty = k + e) :
    ∃ chat', Reaches n chat chat' ∧ chat'.mutex = 1 ∧ chat'.sem .empty = e ∧
      chat'.sem .full = chat.sem .full + k ∧
      chat'.proc = Function.update chat.proc i ⟨.idle, List.replicate r (.send m)⟩ := by
  induction k generalizing chat with
  | zero =>
      refine ⟨chat, .refl, hmutex, by omega, rfl, ?_⟩
      rw [Nat.zero_add] at hproc
      rw [← hproc, Function.update_eq_self]
  | succ k ih =>
      have hops : List.replicate (k + 1 + r) (Op.send m)
          = .send m :: List.replicate (k + r) (.send m) := by
        rw [Nat.add_right_comm, List.replicate_succ]
      rw [hops] at hproc
      obtain ⟨chat₁, hrun₁, hmutex₁, hempty₁, hfull₁, hproc₁⟩ :=
        send_one (n := n) (e := k + e) hmutex hproc (by omega)
      obtain ⟨chat₂, hrun₂, hmutex₂, hempty₂, hfull₂, hproc₂⟩ :=
        ih hmutex₁ (by rw [hproc₁, Function.update_self]) hempty₁
      refine ⟨chat₂, hrun₁.trans hrun₂, hmutex₂, hempty₂, by omega, ?_⟩
      rw [hproc₂, hproc₁, Function.update_idem]

end

section
variable (n full : Nat) (q : Queue) {empty a b : Nat}

/-- With more messages than places the writers take all places before the reader takes a step, and
one of them has still a message. -/
theorem exists_filled (h : empty < a + b) :
    ∃ (chat : Chatting User) (i : User) (m : Message) (ops : List Op),
      Reaches n (start full empty q (users a b)) chat ∧ chat.mutex = 1 ∧ chat.sem .empty = 0 ∧
        chat.sem .full = full + empty ∧ chat.proc .reader = ⟨.idle, reader⟩ ∧ i ≠ .reader ∧
        chat.proc i = ⟨.idle, .send m :: ops⟩ := by
  by_cases hA : empty < a
  · obtain ⟨r, rfl⟩ : ∃ r, a = empty + (r + 1) := ⟨a - empty - 1, by omega⟩
    have hA : (start full empty q (users (empty + (r + 1)) b)).proc .userA
        = ⟨.idle, List.replicate (empty + (r + 1)) (.send ⟨1, 1, 'R'⟩)⟩ := rfl
    obtain ⟨chat, hrun, hmutex, hempty, hfull, hproc⟩ := send_many (n := n) (e := 0) rfl hA rfl
    refine ⟨chat, .userA, ⟨1, 1, 'R'⟩, List.replicate r (.send ⟨1, 1, 'R'⟩), hrun, hmutex,
      hempty, hfull, ?_, by decide, ?_⟩
    · rw [hproc]
      rfl
    · rw [hproc, Function.update_self]
      rfl
  · -- The user A sends all its messages, and the user B takes the places that are left.
    obtain ⟨e, rfl⟩ : ∃ e, empty = a + e := ⟨empty - a, by omega⟩
    obtain ⟨r, rfl⟩ : ∃ r, b = e + (r + 1) := ⟨b - e - 1, by omega⟩
    have hA : (start full (a + e) q (users a (e + (r + 1)))).proc .userA
        = ⟨.idle, List.replicate (a + 0) (.send ⟨1, 1, 'R'⟩)⟩ := rfl
    obtain ⟨chat₁, hrun₁, hmutex₁, hempty₁, hfull₁, hproc₁⟩ :=
      send_many (n := n) (e := e) rfl hA rfl
    have hB : chat₁.proc .userB = ⟨.idle, List.replicate (e + (r + 1)) (.send ⟨0, 0, 'r'⟩)⟩ := by
      rw [hproc₁]
      rfl
    obtain ⟨chat₂, hrun₂, hmutex₂, hempty₂, hfull₂, hproc₂⟩ :=
      send_many (n := n) hmutex₁ hB (e := 0) hempty₁
    refine ⟨chat₂, .userB, ⟨0, 0, 'r'⟩, List.replicate r (.send ⟨0, 0, 'r'⟩), hrun₁.trans hrun₂,
      hmutex₂, hempty₂, ?_, ?_, by decide, ?_⟩
    · rw [hfull₂, hfull₁]
      exact Nat.add_assoc full a e
    · rw [hproc₂, hproc₁]
      rfl
    · rw [hproc₂, Function.update_self]
      rfl

/-- A writer with `mutex` waits for a place, and the reader, which has to make one, waits for
`mutex`. -/
structure Cycle (chat : Chatting User) : Prop where
  writer : ∃ i m, i ≠ .reader ∧ (chat.proc i).pc = .waitEmpty m
  empty : chat.sem .empty = 0
  reader : (chat.proc .reader).pc = .waitMutex
  mutex : chat.mutex = 0

/-- The first read and the next message after that close the cycle. -/
theorem exists_cycle (hpos : 0 < full + empty) (h : empty < a + b) :
    ∃ chat, Reaches n (start full empty q (users a b)) chat ∧ Cycle chat := by
  obtain ⟨chat, i, m, ops, hrun, hmutex, hempty, hfull, hreader, hi, hproc⟩ :=
    exists_filled n full q h
  have hread : Turn n chat .reader ((chat.setSem .full (chat.sem .full - 1)).setProc .reader
      ⟨.waitMutex, List.replicate 9 .read⟩) :=
    .takeFull (by rw [hreader]) (by rw [hreader]; rfl) (by omega)
  have hwriter : (((chat.setSem .full (chat.sem .full - 1)).setProc .reader
      ⟨.waitMutex, List.replicate 9 .read⟩).proc i) = ⟨.idle, .send m :: ops⟩ := by
    rw [← hproc]
    exact Function.update_of_ne hi _ _
  have hlock : Turn n ((chat.setSem .full (chat.sem .full - 1)).setProc .reader
      ⟨.waitMutex, List.replicate 9 .read⟩) i _ :=
    .lock (by rw [hwriter]) (by rw [hwriter]) (by show chat.mutex ≠ 0; omega)
  refine ⟨_, (hrun.trans hread.reaches).trans hlock.reaches, ⟨i, m, hi, ?_⟩, hempty, ?_, ?_⟩
  · simp [setProc]
  · simp [setProc, Ne.symm hi]
  · show chat.mutex - 1 = 0
    omega

end

/-- The messages of the writers. -/
theorem sum_users (countA countB : Nat) :
    ∑ j, (users countA countB j).countP (fun op => op.takes == .empty) = countA + countB := by
  have huniv : (Finset.univ : Finset User) = {.userA, .userB, .reader} := rfl
  rw [huniv, Finset.sum_insert (by decide), Finset.sum_insert (by decide), Finset.sum_singleton]
  simp [users, userA, userB, reader, List.countP_replicate, Op.takes]

/-- What holds when the users do not get in each other's way. -/
structure Safe (n : Nat) (chat : Chatting User) : Prop where
  no_cycle : ¬ Cycle chat
  /-- While the reader has messages to read and the buffer is not empty, somebody has a step. -/
  progress : ¬ chat.Finished .reader → 0 < chat.queue.size → ∃ i chat', chat.next n i = some chat'

/-- The users of `chatting.c` with any numbers of messages, in any order of their steps, and with
any values of the semaphores that an earlier run left. All goes well just when there is a place for
each message before anything is read. -/
theorem usersSafe_iff (bufferSize : Nat) (hpos : 0 < bufferSize) (q : Queue)
    (full empty countA countB : Nat) (hsum : full + empty = bufferSize) :
    (∀ chat, Reaches bufferSize (start full empty q (users countA countB)) chat →
      Safe bufferSize chat) ↔ countA + countB ≤ empty := by
  constructor
  · intro hsafe
    by_contra hmany
    obtain ⟨chat, hrun, hcycle⟩ :=
      exists_cycle bufferSize full q (by omega) (Nat.lt_of_not_le hmany)
    exact (hsafe chat hrun).no_cycle hcycle
  · intro hfew chat hrun
    have hinv : Inv bufferSize full (countA + countB) chat := by
      refine reaches_inv (start_inv hsum q _ (Nat.le_of_eq ?_)) hrun
      exact sum_users countA countB
    constructor
    · rintro ⟨⟨i, m, -, hpc⟩, hempty, -, -⟩
      exact hinv.empty_ne_zero (by omega) hpc hempty
    · intro hfin hsize
      exact hinv.exists_next (by omega) hfin hsize

/-- Four messages in a queue with four places for them. -/
theorem usersSafe_iff_four : 2 + 2 ≤ 4 ∧
    ∀ chat, Reaches 5 (start 1 4 tinyQueue (users 2 2)) chat → Safe 5 chat :=
  ⟨by decide, (usersSafe_iff 5 (by decide) tinyQueue 1 4 2 2 rfl).mpr (by decide)⟩

/-- The two messages of each writer of the source, when an earlier run left two messages unread:
the user A sends two messages and the user B one, the reader gets past `sem_wait(full)`, and the
user B takes `mutex`. -/
theorem not_usersSafe_three :
    ¬ ∀ chat, Reaches 5 (start 2 3 tinyQueue (users 2 2)) chat → Safe 5 chat := by
  intro hsafe
  obtain ⟨chat, hrun, hcycle⟩ : ∃ chat,
      Reaches 5 (start 2 3 tinyQueue (users 2 2)) chat ∧ Cycle chat := by
    refine ⟨_, Run.of_schedule [.userA, .userA, .userA, .userA, .userA, .userA, .userA, .userA,
      .userA, .userA, .userB, .userB, .userB, .userB, .userB, .reader, .userB] rfl, ?_⟩
    exact ⟨⟨.userB, ⟨0, 0, 'r'⟩, by decide, rfl⟩, rfl, rfl, rfl⟩
  exact (hsafe chat hrun).no_cycle hcycle

end Soi.Semafory.Chatting
