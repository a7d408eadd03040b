import Mathlib.Algebra.BigOperators.Ring.Finset
import Soi.Lib.Work
import Soi.Proofs.Semafory.Chatting
import Soi.Proofs.Semafory.Outcome

/-!
# `Soi.Proofs.Semafory.Sessions`: the runs of `chatting.c`, one after the other

The reader wants ten messages, so that it usually waits for more of them when the writers are done.
As long as there is a place for each message, every interleaving comes to this state
(`outcome_of_writers`): `mutex` is free, and `full` has the units that nobody has read. When the
reader is killed there, all units are places again, and the next run starts as the first one did
(`history_fresh`).
-/

set_option autoImplicit false

namespace Soi.Semafory.Chatting

open Soi.Lib

/-- The steps that the current operation still takes. -/
def Pc.work : Pc → Nat
  | .idle => 0
  | .postMutex _ => 1
  | .postGives _ => 2
  | .body _ => 3
  | .waitEmpty _ => 4
  | .waitMutex => 4

/-- The steps that a process still takes. -/
def Process.work (p : Process) : Nat := p.pc.work + 5 * p.ops.length

/-- The process reads a message, but it has not called `read_msg` yet. -/
def Pc.reading : Pc → Bool
  | .waitMutex => true
  | .body .read => true
  | _ => false

/-- The messages that a process has still to read. -/
def Process.wanted (p : Process) : Nat :=
  p.ops.countP (fun op => op.takes == .full) + p.pc.reading.toNat

section
variable {ι : Type*} [DecidableEq ι] {n full₀ total : Nat} {chat chat' : Chatting ι} {i j : ι}

/-- A step takes the first operation of a process, or it leaves the operations alone. -/
theorem turn_ops (hturn : Turn n chat i chat') (j : ι) :
    (chat'.proc j).ops <:+ (chat.proc j).ops := by
  -- Only `lock` and `takeFull` take an operation. They are the first steps of a message.
  by_cases hj : j = i
  · subst hj
    cases hturn with
    | @lock m ops hpc hops hmutex =>
        simp only [setProc, Function.update_self, hops]
        exact List.suffix_cons _ ops
    | @takeFull ops hpc hops hfull =>
        simp only [setProc, Function.update_self, hops]
        exact List.suffix_cons _ ops
    | takeEmpty hpc hempty => simp [setProc, setSem]
    | lockReader hpc hmutex => simp [setProc]
    | body hpc => simp [setProc]
    | give hpc => simp [setProc, setSem]
    | unlock hpc => simp [setProc]
  · have hsame : chat'.proc j = chat.proc j := by
      cases hturn <;> simp [setProc, setSem, hj]
    rw [hsame]

/-- What a process has still to do is the end of its program. -/
theorem reaches_ops {chat₀ : Chatting ι} (hrun : Reaches n chat₀ chat) (j : ι) :
    (chat.proc j).ops <:+ (chat₀.proc j).ops := by
  refine Run.invariant (P := fun a => (a.proc j).ops <:+ (chat₀.proc j).ops) hrun
    (List.suffix_refl _) ?_
  rintro a b ha ⟨i, hnext⟩
  exact (turn_ops (turn_of_next hnext) j).trans ha

variable [Fintype ι]

/-- The steps that all processes still take. -/
def work (chat : Chatting ι) : Nat := ∑ i, (chat.proc i).work

/-- The messages in the queue and those that the writers will send, less those that the reader will
read. -/
def flow (chat : Chatting ι) : Int :=
  chat.queue.size + (∑ j, (chat.proc j).left : Nat) - (∑ j, (chat.proc j).wanted : Nat)

/-- The process `i` pays a step, and it keeps the flow. -/
theorem turn_update {p : Process} (hproc : chat'.proc = Function.update chat.proc i p)
    (hwork : p.work + 1 = (chat.proc i).work)
    (hflow : chat'.queue.size + p.left - p.wanted
      = chat.queue.size + (chat.proc i).left - (chat.proc i).wanted) :
    chat'.work + 1 = chat.work ∧ chat'.flow = chat.flow := by
  have hsum := sum_update Process.work chat.proc i p
  have hleft := sum_update Process.left chat.proc i p
  have hwanted := sum_update Process.wanted chat.proc i p
  unfold work flow
  rw [hproc]
  omega

/-- A step is paid from the work, and it keeps the flow: a message goes from a writer to the queue,
or from the queue to the reader. -/
theorem turn_spends (hturn : Turn n chat i chat') :
    chat'.work + 1 = chat.work ∧ chat'.flow = chat.flow := by
  cases hturn with
  | lock hpc hops hmutex =>
      refine turn_update rfl ?_ ?_
      · simp only [Process.work, hpc, hops, Pc.work, List.length_cons]
        omega
      · simp [Process.left, Process.wanted, setProc, hpc, hops, Pc.sending, Pc.reading, Op.takes]
  | takeFull hpc hops hfull =>
      refine turn_update rfl ?_ ?_
      · simp only [Process.work, hpc, hops, Pc.work, List.length_cons]
        omega
      · simp [Process.left, Process.wanted, setProc, setSem, hpc, hops, Pc.sending, Pc.reading,
          Op.takes]
  | takeEmpty hpc hempty =>
      refine turn_update rfl ?_ ?_
      · simp only [Process.work, hpc, Pc.work]
        omega
      · simp [Process.left, Process.wanted, setProc, setSem, hpc, Pc.sending, Pc.reading]
  | lockReader hpc hmutex =>
      refine turn_update rfl ?_ ?_
      · simp only [Process.work, hpc, Pc.work]
        omega
      · simp [Process.left, Process.wanted, setProc, hpc, Pc.sending, Pc.reading]
  | @body op hpc =>
      refine turn_update rfl ?_ ?_
      · simp only [Process.work, hpc, Pc.work]
        omega
      · cases op with
        | send m =>
            simp only [Process.left, Process.wanted, hpc, Pc.sending, Pc.reading, Op.useQueue,
              Queue.size_sendMsg, Bool.toNat_true, Bool.toNat_false]
            omega
        | read =>
            simp only [Process.left, Process.wanted, hpc, Pc.sending, Pc.reading, Op.useQueue,
              Queue.readMsg, Bool.toNat_true, Bool.toNat_false]
            omega
  | give hpc =>
      refine turn_update rfl ?_ ?_
      · simp only [Process.work, hpc, Pc.work]
        omega
      · simp [Process.left, Process.wanted, setProc, setSem, hpc, Pc.sending, Pc.reading]
  | unlock hpc =>
      refine turn_update rfl ?_ ?_
      · simp only [Process.work, hpc, Pc.work]
        omega
      · simp [Process.left, Process.wanted, setProc, hpc, Pc.sending, Pc.reading]

/-- The work of the processes pays for the steps. -/
theorem next_spends : Spends (next (ι := ι) n) work := by
  intro chat i chat' hnext
  have hwork := (turn_spends (turn_of_next hnext)).1
  omega

/-- The flow is the same in each state of a run. -/
theorem reaches_flow (hrun : Reaches n chat chat') : chat'.flow = chat.flow := by
  refine Run.invariant (P := fun a => a.flow = chat.flow) hrun rfl ?_
  rintro a b ha ⟨i, hnext⟩
  exact (turn_spends (turn_of_next hnext)).2.trans ha

/-- Where nobody has a step and each message has a place, all processes are between two messages,
and those that are not finished wait for `full`. -/
theorem Inv.ended (h : Inv n full₀ total chat) (htotal : total + full₀ ≤ n)
    (hended : ∀ i, chat.next n i = none) :
    chat.mutex = 1 ∧ (∀ i, (chat.proc i).pc = .idle) ∧
      (∀ i m ops, (chat.proc i).ops ≠ .send m :: ops) ∧
      ∀ i ops, (chat.proc i).ops = .read :: ops → chat.sem .full = 0 := by
  -- Each place of a process that has a step is excluded.
  have hno : ∀ {i : ι} {chat' : Chatting ι}, ¬ Turn n chat i chat' := by
    intro i chat' hturn
    have hnext := hturn.next
    rw [hended i] at hnext
    cases hnext
  have hnone : ∀ j, (chat.proc j).pc.critical = false := by
    intro j
    cases hpc : (chat.proc j).pc with
    | idle => rfl
    | waitMutex => rfl
    -- A writer with `mutex` finds a place, as there is one for each message.
    | waitEmpty m => exact absurd (.takeEmpty hpc (h.empty_ne_zero htotal hpc)) hno
    | body op => exact absurd (.body hpc) hno
    | postGives op => exact absurd (.give hpc) hno
    | postMutex op => exact absurd (.unlock hpc) hno
  have hmutex : chat.mutex = 1 := by
    have := h.mutex
    have hcount : count (fun p : Process => p.pc.critical) chat.proc = 0 :=
      count_eq_zero.mpr hnone
    omega
  have hfree : chat.mutex ≠ 0 := by omega
  -- Nobody has `mutex`, so that nobody waits for it.
  have hidle : ∀ j, (chat.proc j).pc = .idle := by
    intro j
    have hout := hnone j
    cases hpc : (chat.proc j).pc with
    | idle => rfl
    | waitMutex => exact absurd (.lockReader hpc hfree) hno
    | _ =>
        rw [hpc] at hout
        cases hout
  refine ⟨hmutex, hidle, fun i m ops hops => hno (.lock (hidle i) hops hfree), ?_⟩
  intro i ops hops
  by_contra hfull
  exact hno (.takeFull (hidle i) hops hfull)

omit [DecidableEq ι] in
/-- Between two messages the units are in the semaphores. -/
theorem Inv.sem_eq (h : Inv n full₀ total chat) (hidle : ∀ i, (chat.proc i).pc = .idle) (c : Sem) :
    (chat.sem c : Int) = units n full₀ chat.queue c := by
  have htokens := h.tokens c
  have hcount : count (fun p : Process => p.pc.holds c) chat.proc = 0 := by
    refine count_eq_zero.mpr ?_
    intro i
    rw [hidle i]
    rfl
  rw [hcount, Nat.add_zero] at htokens
  exact htokens

end

/-- Nobody deadlocks when each message has a place. -/
theorem Inv.safe {n full₀ total : Nat} {chat : Chatting User} (h : Inv n full₀ total chat)
    (htotal : total + full₀ ≤ n) : Safe n chat := by
  constructor
  · rintro ⟨⟨i, m, -, hpc⟩, hempty, -, -⟩
    exact h.empty_ne_zero htotal hpc hempty
  · intro hfin hsize
    exact h.exists_next htotal hfin hsize

/-! ### One run -/

section
variable {n full empty a b : Nat} {q : Queue} {chat : Chatting User}

/-- The end of a run that found `full₀` units of the earlier runs, with `a` and `b` messages: the
writers are done, and the reader has read all that it wanted, or all that there was. -/
structure Drained (n full₀ a b : Nat) (chat : Chatting User) : Prop where
  mutex : chat.mutex = 1
  writers : chat.Finished .userA ∧ chat.Finished .userB
  reader : (chat.proc .reader).pc = .idle ∧
    (chat.proc .reader).ops.length + min 10 (full₀ + a + b) = 10
  full : chat.sem .full + min 10 (full₀ + a + b) = full₀ + a + b
  empty : chat.sem .empty + chat.sem .full = n
  /-- `main` returns when there are messages enough. -/
  finished : (∀ i, chat.Finished i) ↔ 10 ≤ full₀ + a + b

/-- The operations of a user are of one kind. -/
theorem op_of_mem_users {i : User} {op : Op} (h : op ∈ users a b i) :
    (i ≠ .reader ∧ ∃ m, op = .send m) ∨ (i = .reader ∧ op = .read) := by
  cases i with
  | reader => exact Or.inr ⟨rfl, (List.mem_replicate.mp h).2⟩
  | _ => exact Or.inl ⟨by decide, _, (List.mem_replicate.mp h).2⟩

/-- At the start the queue is empty, and the reader wants ten messages. -/
theorem flow_start : (start full empty q (users a b)).flow = a + b - 10 := by
  have hleft : ∑ j, ((start full empty q (users a b)).proc j).left = a + b := sum_users a b
  have hwanted : ∑ j, ((start full empty q (users a b)).proc j).wanted = 10 := by
    rw [sum_user]
    simp [Process.wanted, start, users, userA, userB, reader, List.countP_replicate, Op.takes,
      Pc.reading]
  unfold flow
  rw [hleft, hwanted]
  show (0 : Int) + _ - _ = _
  omega

/-- A run with a place for each message, where nobody has a step any more. -/
theorem drained_of_reaches (hsum : full + empty = n) (hfew : a + b ≤ empty)
    (hrun : Reaches n (start full empty q (users a b)) chat)
    (hended : ∀ i, chat.next n i = none) : Drained n full a b chat := by
  have h : Inv n full (a + b) chat :=
    reaches_inv (start_inv hsum q _ (Nat.le_of_eq (sum_users a b))) hrun
  obtain ⟨hmutex, hidle, hsends, hreads⟩ := h.ended (by omega) hended
  have hfull : (chat.sem .full : Int) = chat.queue.size + full := h.sem_eq hidle .full
  have hempty : (chat.sem .empty : Int) = n - (chat.queue.size + full) := h.sem_eq hidle .empty
  have hmem : ∀ i op, op ∈ (chat.proc i).ops →
      (i ≠ .reader ∧ ∃ m, op = .send m) ∨ (i = .reader ∧ op = .read) :=
    fun i op hop => op_of_mem_users ((reaches_ops hrun i).mem hop)
  -- A writer would have a step, so that it has nothing to do.
  have hwriter : ∀ i, i ≠ .reader → (chat.proc i).ops = [] := by
    intro i hi
    cases hops : (chat.proc i).ops with
    | nil => rfl
    | cons op ops =>
        rcases hmem i op (hops ▸ List.mem_cons_self) with ⟨-, m, rfl⟩ | ⟨hreader, -⟩
        · exact absurd hops (hsends i m ops)
        · exact absurd hreader hi
  have hreader : ∀ op ∈ (chat.proc .reader).ops, op = .read := by
    intro op hop
    rcases hmem .reader op hop with ⟨hne, -⟩ | ⟨-, hread⟩
    · exact absurd rfl hne
    · exact hread
  have hflow := reaches_flow hrun
  -- The flow at the start and at the end: what the reader has not got is not there.
  have hleft : ∑ j, (chat.proc j).left = 0 := by
    rw [sum_user]
    simp only [Process.left, hidle, hwriter .userA (by decide), hwriter .userB (by decide),
      Pc.sending, List.countP_nil, Bool.toNat_false, Nat.zero_add, Nat.add_zero]
    exact List.countP_eq_zero.mpr fun op hop => by simp [hreader op hop, Op.takes]
  have hwanted : ∑ j, (chat.proc j).wanted = (chat.proc .reader).ops.length := by
    rw [sum_user]
    simp only [Process.wanted, hidle, hwriter .userA (by decide), hwriter .userB (by decide),
      Pc.reading, List.countP_nil, Bool.toNat_false, Nat.zero_add, Nat.add_zero]
    exact List.countP_eq_length.mpr fun op hop => by simp [hreader op hop, Op.takes]
  rw [flow_start, flow, hleft, hwanted] at hflow
  have hwaits : (chat.proc .reader).ops.length ≠ 0 → chat.sem .full = 0 := by
    intro hne
    cases hops : (chat.proc .reader).ops with
    | nil =>
        rw [hops] at hne
        exact absurd rfl hne
    | cons op ops =>
        obtain rfl := hreader op (hops ▸ List.mem_cons_self)
        exact hreads .reader ops hops
  refine ⟨hmutex, ⟨⟨hidle _, hwriter _ (by decide)⟩, ⟨hidle _, hwriter _ (by decide)⟩⟩,
    ⟨hidle _, by omega⟩, by omega, by omega, ?_⟩
  constructor
  · intro hall
    have hnil : (chat.proc .reader).ops.length = 0 := by rw [(hall .reader).2]; rfl
    omega
  · intro hmany i
    refine ⟨hidle i, ?_⟩
    by_cases hi : i = .reader
    · subst hi
      exact List.length_eq_zero_iff.mp (by omega)
    · exact hwriter i hi

/-- At the start there are five steps to do for each operation, ten of which are those of the
reader. -/
theorem work_start (full empty a b : Nat) (q : Queue) :
    (start full empty q (users a b)).work = 5 * (a + b + 10) := by
  unfold work
  rw [sum_user]
  simp only [start, users, userA, userB, reader, Process.work, Pc.work, List.length_replicate]
  omega

end

/-- The users of `chatting.c` with a place for each message: all interleavings end, and the ends
differ in nothing but the queue. -/
theorem outcome_of_writers (n : Nat) (q : Queue) (full empty a b : Nat) (hsum : full + empty = n)
    (hfew : a + b ≤ empty) :
    Outcome (next n) (start full empty q (users a b)) (5 * (a + b + 10)) (Drained n full a b) := by
  rw [← work_start full empty a b q]
  exact Outcome.of_work next_spends fun schedule chat hschedule hended =>
    drained_of_reaches hsum hfew (Run.of_schedule schedule hschedule) hended

/-- Two messages of each writer, in a queue with a place for each of them. -/
theorem outcome_of_writers_four :
    Outcome (next 5) (start 0 5 tinyQueue (users 2 2)) 70 (Drained 5 0 2 2) :=
  outcome_of_writers 5 tinyQueue 0 5 2 2 rfl (by decide)

/-! ### Many runs -/

/-- Any sequence of runs, each with at most `n` messages and no more than the reader wants, and each
up to its end: the next run finds what the first one found. So nobody deadlocks in it. -/
theorem history_fresh (n : Nat) (counts : List (Nat × Nat)) (names : Named)
    (hfew : ∀ c ∈ counts, c.1 + c.2 ≤ n ∧ c.1 + c.2 ≤ 10)
    (hhistory : History n counts (.fresh n) names) :
    names = .fresh n ∧ ∀ q a b, a + b ≤ n → ∀ chat, Reaches n (names.main q a b) chat →
      Safe n chat := by
  have hfresh : names = .fresh n := by
    induction counts with
    | nil => exact hhistory
    | cons c counts ih =>
        obtain ⟨hplaces, hwanted⟩ := hfew c List.mem_cons_self
        obtain ⟨mid, ⟨q, chat, hrun, hended, rfl⟩, hrest⟩ := hhistory
        have hrun : Reaches n (start 0 n q (users c.1 c.2)) chat := hrun
        have hdrained := drained_of_reaches (Nat.zero_add n) hplaces hrun hended
        have hmid : Named.ofChatting chat = .fresh n := by
          have hfull := hdrained.full
          have hempty := hdrained.empty
          have hzero : chat.sem .full = 0 := by omega
          have hn : chat.sem .empty = n := by omega
          unfold Named.ofChatting Named.fresh
          rw [hdrained.mutex, hzero, hn]
        rw [hmid] at hrest
        exact ih (fun c hc => hfew c (List.mem_cons_of_mem _ hc)) hrest
  refine ⟨hfresh, ?_⟩
  intro q a b hab chat hrun
  rw [hfresh] at hrun
  have hrun : Reaches n (start 0 n q (users a b)) chat := hrun
  have h : Inv n 0 (a + b) chat :=
    reaches_inv (start_inv (Nat.zero_add n) q _ (Nat.le_of_eq (sum_users a b))) hrun
  exact h.safe hab

/-- A run of the source, with two messages of each writer, and the next one. -/
theorem history_fresh_two : History 5 [(2, 2)] (.fresh 5) (.fresh 5) ∧
    Safe 5 ((Named.fresh 5).main tinyQueue 2 2) := by
  obtain ⟨threads, chat, hrun, hended⟩ :=
    exists_ended next_spends ((Named.fresh 5).main tinyQueue 2 2)
  have hhistory : History 5 [(2, 2)] (.fresh 5) (.ofChatting chat) :=
    ⟨_, ⟨tinyQueue, chat, Run.of_schedule threads hrun, hended, rfl⟩, rfl⟩
  obtain ⟨hfresh, hsafe⟩ := history_fresh 5 [(2, 2)] (.ofChatting chat) (by decide) hhistory
  rw [hfresh] at hhistory hsafe
  exact ⟨hhistory, hsafe tinyQueue 2 2 (by decide) _ .refl⟩

end Soi.Semafory.Chatting
