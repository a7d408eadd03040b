import Soi.Lib.Seg
import Soi.Szeregowanie.Kernel

/-!
# `Soi.Proofs.Szeregowanie.Kernel`: when the head of the user queue is put at its end

`sched` counts `p_ticks` of the head down and compares it with 0. So the head moves when its
quantum is positive, and a quantum that is 0 or negative is never reached. `Inv` says that the
quanta of both groups and those on the queue are in 1..99. A fork and a change of the group keep it
(`step_keeps`), and `sched` gives a quantum only from `PROC_TIME`. What is left is `set_scheduler`,
which takes any `x` from a caller of the group A.

`turn_within` is the turn of the head, whatever calls come between those of `sched`, and
`stays_of_nonpos` is what happens without a quantum. `fair_iff` is the condition on the calls.
-/

set_option autoImplicit false

namespace Soi.Szeregowanie.Kernel

open Soi.Lib

section
variable {k k' : Kernel} {a : Int} {l : List Int} {call : Call} {calls : List Call}

/-- A run of some calls is a step for the first one and a run of the others. -/
theorem exists_of_run_cons (hrun : k.run (call :: calls) = some k') :
    ∃ mid, k.step call = some mid ∧ mid.run calls = some k' := by
  rw [run] at hrun
  cases hstep : k.step call with
  | none =>
      rw [hstep] at hrun
      cases hrun
  | some mid =>
      rw [hstep] at hrun
      exact ⟨mid, rfl, hrun⟩

/-- A write to a process. -/
@[simp] theorem setProc_proc_self (i : Int) (p : Proc) : (k.setProc i p).proc i = p := by
  show Function.update k.proc i p i = p
  exact Function.update_self i p k.proc

/-- A write of a process leaves the other ones as they are. -/
theorem setProc_proc_of_ne {i j : Int} (p : Proc) (hj : j ≠ i) :
    (k.setProc i p).proc j = k.proc j := by
  show Function.update k.proc i p j = k.proc j
  exact Function.update_of_ne hj p k.proc

/-! ### The queue -/

/-- The processes of `l` are on the user queue, in this order. -/
structure UserQ (k : Kernel) (l : List Int) : Prop where
  seg : Seg (fun i => (k.proc i).pNextready) k.rdyHead l none
  /-- The tail of an empty queue is not read. -/
  tail : l ≠ [] → k.rdyTail = l.getLast?

/-- The pointers of the queue decide what is on it. -/
theorem UserQ.congr (h : k.UserQ l) (hhead : k'.rdyHead = k.rdyHead)
    (htail : k'.rdyTail = k.rdyTail)
    (hnext : ∀ i ∈ l, (k.proc i).pNextready = (k'.proc i).pNextready) : k'.UserQ l := by
  refine ⟨?_, fun hl => htail.trans (h.tail hl)⟩
  rw [hhead]
  exact h.seg.congr hnext

/-- The pointers determine the queue. -/
theorem UserQ.unique {l' : List Int} (h : k.UserQ l) (h' : k.UserQ l') : l = l' :=
  Seg.unique h.seg h'.seg

/-- A write of a link, as one of the linked list. -/
theorem nextready_setNextready (rp : Int) (next : Option Int) :
    (fun i => ((k.setNextready rp next).proc i).pNextready)
      = Function.update (fun i => (k.proc i).pNextready) rp next := by
  funext i
  by_cases hi : i = rp
  · subst hi
    simp [setNextready, setProc]
  · simp [setNextready, setProc, hi]

/-- A write of a link changes nothing else about any process. -/
theorem setNextready_proc (rp : Int) (next : Option Int) (i : Int) :
    ∃ next', (k.setNextready rp next).proc i = { k.proc i with pNextready := next' } := by
  by_cases hi : i = rp
  · subst hi
    exact ⟨next, setProc_proc_self i _⟩
  · exact ⟨(k.proc i).pNextready, setProc_proc_of_ne _ hi⟩

/-- A write of a link leaves the other processes as they are. -/
theorem setNextready_proc_of_ne {rp i : Int} (next : Option Int) (hi : i ≠ rp) :
    (k.setNextready rp next).proc i = k.proc i := setProc_proc_of_ne _ hi

/-- The head is put at the end, and nothing is written but the pointers of the head and the tail. -/
theorem toTail_spec (h : k.UserQ (a :: l)) :
    ∃ k', k.toTail a = some k' ∧ k'.UserQ (l ++ [a]) ∧ k'.procTime = k.procTime ∧
      (∀ i, ∃ next, k'.proc i = { k.proc i with pNextready := next }) ∧
      ∀ i ≠ a, some i ≠ k.rdyTail → k'.proc i = k.proc i := by
  obtain ⟨t, ht⟩ : ∃ t, (a :: l).getLast? = some t := ⟨_, List.getLast?_eq_some_getLast (by simp)⟩
  have htail : k.rdyTail = some t := (h.tail (by simp)).trans ht
  rw [toTail, htail]
  refine ⟨_, rfl, ⟨?_, ?_⟩, rfl, ?_, ?_⟩
  · have hseg := h.seg.rotate ht
    rw [← nextready_setNextready, ← nextready_setNextready (k := k.setNextready t (some a))] at hseg
    exact hseg
  · intro _
    exact (List.getLast?_concat).symm
  · intro i
    obtain ⟨next, hnext⟩ := setNextready_proc (k := k) t (some a) i
    obtain ⟨next', hnext'⟩ := setNextready_proc (k := k.setNextready t (some a)) a none i
    refine ⟨next', ?_⟩
    rw [hnext] at hnext'
    exact hnext'
  · intro i hia hit
    have hne : i ≠ t := fun hi => hit (congrArg some hi)
    exact (setNextready_proc_of_ne (k := k.setNextready t (some a)) none hia).trans
      (setNextready_proc_of_ne (some a) hne)

/-! ### One call of `sched` -/

/-- Writes to a process that leave its place in the queue alone. -/
theorem UserQ.setProc {p : Proc} (h : k.UserQ l) (hp : p.pNextready = (k.proc a).pNextready) :
    (k.setProc a p).UserQ l := by
  refine h.congr rfl rfl fun i _ => ?_
  by_cases hi : i = a
  · subst hi
    rw [setProc_proc_self, hp]
  · rw [setProc_proc_of_ne p hi]

/-- The head leaves with this call: it is there for the first time, or its last tick is over. -/
def LastTurn (k : Kernel) (a : Int) : Prop := (k.proc a).pFirst = 1 ∨ (k.proc a).pTicks = 1

/-- `sched` does nothing when no user is ready. -/
theorem sched_nil (h : k.UserQ []) : k.sched = some k := by
  have hhead : k.rdyHead = none := h.seg
  rw [sched, hhead]

/-- The head is written as `p` and put at the end. Of the other processes only the pointer of the
tail can change. -/
structure Rotated (k : Kernel) (a : Int) (l : List Int) (p : Proc) (k' : Kernel) : Prop where
  userQ : k'.UserQ (l ++ [a])
  procTime : k'.procTime = k.procTime
  head : ∃ next, k'.proc a = { p with pNextready := next }
  other : ∀ i ≠ a, ∃ next, k'.proc i = { k.proc i with pNextready := next }
  frame : ∀ i ≠ a, some i ≠ k.rdyTail → k'.proc i = k.proc i

/-- The head is written, with its link as before, and then it goes to the tail. -/
theorem setProc_toTail {p : Proc} (h : k.UserQ (a :: l))
    (hnext : p.pNextready = (k.proc a).pNextready) :
    ∃ k', (k.setProc a p).toTail a = some k' ∧ k.Rotated a l p k' := by
  obtain ⟨k', htoTail, hq, htime, hproc, hframe⟩ := toTail_spec (h.setProc hnext)
  refine ⟨k', htoTail, hq, htime, ?_, ?_, ?_⟩
  · obtain ⟨next, ha⟩ := hproc a
    rw [setProc_proc_self] at ha
    exact ⟨next, ha⟩
  · intro i hi
    obtain ⟨next, hproc'⟩ := hproc i
    rw [setProc_proc_of_ne p hi] at hproc'
    exact ⟨next, hproc'⟩
  · intro i hi htail
    exact (hframe i hi htail).trans (setProc_proc_of_ne p hi)

/-- The first turn is over at once, and it is not charged. -/
theorem sched_first (h : k.UserQ (a :: l)) (hfirst : (k.proc a).pFirst = 1) :
    ∃ k', k.sched = some k' ∧ k.Rotated a l { k.proc a with pFirst := 0 } k' := by
  have hhead : k.rdyHead = some a := h.seg.1
  obtain ⟨k', htoTail, hrotated⟩ := setProc_toTail (p := { k.proc a with pFirst := 0 }) h rfl
  refine ⟨k', ?_, hrotated⟩
  simp only [sched, hhead, if_pos hfirst]
  exact htoTail

/-- A later turn is over with its last tick. The next quantum is that of the group. -/
theorem sched_over (h : k.UserQ (a :: l)) (hfirst : (k.proc a).pFirst ≠ 1)
    (hticks : (k.proc a).pTicks = 1) :
    ∃ k', k.sched = some k' ∧
      k.Rotated a l { k.proc a with pTicks := k.procTime (k.proc a).pGroup } k' := by
  have hhead : k.rdyHead = some a := h.seg.1
  have hone : (k.proc a).pTicks - 1 = 0 := by omega
  obtain ⟨k', htoTail, hrotated⟩ :=
    setProc_toTail (p := { k.proc a with pTicks := k.procTime (k.proc a).pGroup }) h rfl
  refine ⟨k', ?_, hrotated⟩
  simp only [sched, hhead, if_neg hfirst, if_pos (Or.inl hone)]
  exact htoTail

/-- The call that puts the head at the end of the queue. Its ticks are the old ones, or those of its
group. -/
theorem sched_turn (h : k.UserQ (a :: l)) (hlast : k.LastTurn a) :
    ∃ k', k.sched = some k' ∧ k'.UserQ (l ++ [a]) ∧ k'.procTime = k.procTime ∧
      (∀ i, (k'.proc i).pPriority = (k.proc i).pPriority) ∧
      (∀ i ≠ a, (k'.proc i).pTicks = (k.proc i).pTicks) ∧
      ((k'.proc a).pTicks = (k.proc a).pTicks ∨
        ∃ group, (k'.proc a).pTicks = k.procTime group) := by
  obtain ⟨k', p, hsched, hrotated, hpriority, hticks⟩ : ∃ k' p, k.sched = some k' ∧
      k.Rotated a l p k' ∧ p.pPriority = (k.proc a).pPriority ∧
      (p.pTicks = (k.proc a).pTicks ∨ ∃ group, p.pTicks = k.procTime group) := by
    by_cases hfirst : (k.proc a).pFirst = 1
    · obtain ⟨k', hsched, hrotated⟩ := sched_first h hfirst
      exact ⟨k', _, hsched, hrotated, rfl, Or.inl rfl⟩
    · obtain ⟨k', hsched, hrotated⟩ := sched_over h hfirst (hlast.resolve_left hfirst)
      exact ⟨k', _, hsched, hrotated, rfl, Or.inr ⟨_, rfl⟩⟩
  obtain ⟨next, ha⟩ := hrotated.head
  refine ⟨k', hsched, hrotated.userQ, hrotated.procTime, ?_, ?_, ?_⟩
  · intro i
    by_cases hi : i = a
    · rw [hi, ha]
      exact hpriority
    · obtain ⟨next, hi⟩ := hrotated.other i hi
      rw [hi]
  · intro i hi
    obtain ⟨next, hi⟩ := hrotated.other i hi
    rw [hi]
  · rw [ha]
    exact hticks

/-- Any other call only takes a tick from the head. -/
theorem sched_stay (h : k.UserQ (a :: l)) (hlast : ¬ k.LastTurn a) :
    k.sched = some (k.setProc a { k.proc a with pTicks := (k.proc a).pTicks - 1 }) := by
  have hhead : k.rdyHead = some a := h.seg.1
  have hfirst : (k.proc a).pFirst ≠ 1 := fun hfirst => hlast (Or.inl hfirst)
  have hticks : ¬ ((k.proc a).pTicks - 1 = 0 ∨ (k.proc a).pTicks - 1 = 0) := by
    rintro (hticks | hticks)
    · exact hlast (Or.inr (by omega))
    · exact hlast (Or.inr (by omega))
  simp only [sched, hhead, if_neg hfirst, if_neg hticks]

/-- A head without a quantum stays where it is, however often `sched` is called. -/
theorem stays_of_nonpos (h : k.UserQ (a :: l)) (hfirst : (k.proc a).pFirst ≠ 1)
    (hticks : (k.proc a).pTicks ≤ 0) (m : Nat) :
    ∃ k', k.run (List.replicate m .sched) = some k' ∧ k'.UserQ (a :: l) ∧
      (k'.proc a).pFirst ≠ 1 ∧ (k'.proc a).pTicks ≤ 0 := by
  induction m generalizing k with
  | zero => exact ⟨k, rfl, h, hfirst, hticks⟩
  | succ m ih =>
      have hlast : ¬ k.LastTurn a := by
        rintro (hone | hone)
        · exact hfirst hone
        · omega
      have hsched := sched_stay h hlast
      obtain ⟨k', hrun, hrest⟩ := ih
        (h.setProc (p := { k.proc a with pTicks := (k.proc a).pTicks - 1 }) rfl)
        (by simpa using hfirst) (by simp only [setProc_proc_self]; omega)
      refine ⟨k', ?_, hrest⟩
      rw [List.replicate_succ, run, step, hsched]
      exact hrun

/-! ### The other calls -/

/-- The processes of the queue, which are no empty slots. -/
structure Queued (k : Kernel) (l : List Int) : Prop where
  userQ : k.UserQ l
  inUse : ∀ i ∈ l, (k.proc i).pPriority ≠ .none

/-- A write that keeps the link and the priority of the process keeps the queue. -/
theorem Queued.setProc {p : Proc} (h : k.Queued l) (hp : p.pNextready = (k.proc a).pNextready)
    (hpriority : p.pPriority = (k.proc a).pPriority) : (k.setProc a p).Queued l := by
  refine ⟨h.userQ.setProc hp, ?_⟩
  intro i hi
  by_cases hia : i = a
  · subst hia
    rw [setProc_proc_self, hpriority]
    exact h.inUse i hi
  · rw [setProc_proc_of_ne p hia]
    exact h.inUse i hi

/-- `do_fork` writes an empty slot. The child has the quantum of its group, and its first turn is to
come. -/
theorem doFork_spec {proc1 proc2 pid : Int} (hfork : k.doFork proc1 proc2 pid = some k') :
    (k.proc proc2).pPriority = .none ∧
      ∃ p, k' = k.setProc proc2 p ∧ p.pFirst = 1 ∧ p.pTicks = k.procTime p.pGroup := by
  rw [doFork] at hfork
  split at hfork
  · rename_i hassert
    exact ⟨hassert.2, _, (Option.some.inj hfork).symm, rfl, rfl⟩
  · cases hfork

/-- `set_scheduler` only writes `PROC_TIME`. -/
theorem setsched_proc {caller x : Int} (hstep : k.step (.setsched caller x) = some k') :
    k'.rdyHead = k.rdyHead ∧ k'.rdyTail = k.rdyTail ∧ k'.proc = k.proc := by
  rw [step, doSetsched, setScheduler] at hstep
  split at hstep
  · cases hstep
    exact ⟨rfl, rfl, rfl⟩
  · cases hstep
    exact ⟨rfl, rfl, rfl⟩

/-- It writes the two proportions, for a caller of the group A. -/
theorem setsched_procTime {caller x : Int} (hstep : k.step (.setsched caller x) = some k') :
    k'.procTime = k.procTime ∨
      ((k.proc caller).pGroup = .groupA ∧ k'.procTime .groupA = x ∧
        k'.procTime .groupB = 100 - x) := by
  rw [step, doSetsched, setScheduler] at hstep
  split at hstep
  · rename_i hgroup
    cases hstep
    exact Or.inr ⟨hgroup, rfl, rfl⟩
  · cases hstep
    exact Or.inl rfl

/-- `change_group` only writes a group. -/
theorem chgroup_proc {caller : Int} (hstep : k.step (.chgroup caller) = some k') :
    k'.rdyHead = k.rdyHead ∧ k'.rdyTail = k.rdyTail ∧ k'.procTime = k.procTime ∧
      ∀ i, ∃ group, k'.proc i = { k.proc i with pGroup := group } := by
  obtain ⟨group, rfl⟩ :
      ∃ group, k' = k.setProc caller { k.proc caller with pGroup := group } := by
    rw [step, doChgroup, changeGroup] at hstep
    split at hstep
    · exact ⟨.groupB, (Option.some.inj hstep).symm⟩
    · exact ⟨.groupA, (Option.some.inj hstep).symm⟩
  refine ⟨rfl, rfl, rfl, ?_⟩
  intro i
  by_cases hi : i = caller
  · subst hi
    exact ⟨group, setProc_proc_self i _⟩
  · exact ⟨(k.proc i).pGroup, setProc_proc_of_ne _ hi⟩

/-- A fork writes an empty slot, and of the processes on the queue only the group can change. -/
theorem step_proc (hinUse : ∀ i ∈ l, (k.proc i).pPriority ≠ .none) (hcall : call ≠ .sched)
    (hstep : k.step call = some k') :
    k'.rdyHead = k.rdyHead ∧ k'.rdyTail = k.rdyTail ∧
      ∀ i ∈ l, ∃ group, k'.proc i = { k.proc i with pGroup := group } := by
  cases call with
  | sched => exact absurd rfl hcall
  | fork proc1 proc2 pid =>
      obtain ⟨hempty, p, rfl, -⟩ := doFork_spec hstep
      refine ⟨rfl, rfl, ?_⟩
      intro i hi
      have hne : i ≠ proc2 := by
        rintro rfl
        exact hinUse i hi hempty
      exact ⟨(k.proc i).pGroup, setProc_proc_of_ne p hne⟩
  | setsched caller x =>
      obtain ⟨hhead, htail, hproc⟩ := setsched_proc hstep
      exact ⟨hhead, htail, fun i _ => ⟨(k.proc i).pGroup, congrFun hproc i⟩⟩
  | chgroup caller =>
      obtain ⟨hhead, htail, -, hproc⟩ := chgroup_proc hstep
      exact ⟨hhead, htail, fun i _ => hproc i⟩

/-- So they keep the queue, with the ticks. -/
theorem step_keeps (h : k.Queued l) (hcall : call ≠ .sched) (hstep : k.step call = some k') :
    k'.Queued l ∧ ∀ i ∈ l, (k'.proc i).pTicks = (k.proc i).pTicks ∧
      (k'.proc i).pFirst = (k.proc i).pFirst := by
  obtain ⟨hhead, htail, hproc⟩ := step_proc h.inUse hcall hstep
  refine ⟨⟨h.userQ.congr hhead htail ?_, ?_⟩, ?_⟩
  · intro i hi
    obtain ⟨group, hi⟩ := hproc i hi
    rw [hi]
  · intro i hi
    have hinUse := h.inUse i hi
    obtain ⟨group, hi⟩ := hproc i hi
    rw [hi]
    exact hinUse
  · intro i hi
    obtain ⟨group, hi⟩ := hproc i hi
    rw [hi]
    exact ⟨rfl, rfl⟩

/-! ### The turn of the head -/

/-- How many calls of `sched` are enough for the head. -/
def due (k : Kernel) (a : Int) : Int := if (k.proc a).pFirst = 1 then 1 else (k.proc a).pTicks

/-- The last call of a turn was due. -/
theorem due_lastTurn (hlast : k.LastTurn a) : k.due a = 1 := by
  rw [due]
  by_cases hfirst : (k.proc a).pFirst = 1
  · rw [if_pos hfirst]
  · rw [if_neg hfirst]
    exact hlast.resolve_left hfirst

/-- A tick that is not the last one. -/
theorem due_tick (hlast : ¬ k.LastTurn a) : k.due a ≠ 1 ∧
    (k.setProc a { k.proc a with pTicks := (k.proc a).pTicks - 1 }).due a = k.due a - 1 := by
  have hfirst : (k.proc a).pFirst ≠ 1 := fun hfirst => hlast (Or.inl hfirst)
  have hdue : k.due a = (k.proc a).pTicks := if_neg hfirst
  rw [hdue, due, setProc_proc_self]
  exact ⟨fun hticks => hlast (Or.inr hticks), if_neg hfirst⟩

/-- A head with a positive quantum is put at the end after that many calls of `sched`, in any run
that has them, whatever the other calls are. Until then it stays at the head. -/
theorem turn_within (h : k.Queued (a :: l)) (hpos : 1 ≤ k.due a) {m : Nat} (hm : k.due a ≤ m)
    (hcount : m ≤ calls.count .sched) (hrun : k.run calls = some k') :
    ∃ pre post k₁ k₂, calls = pre ++ .sched :: post ∧ pre.count .sched < m ∧
      k.run pre = some k₁ ∧ k₁.UserQ (a :: l) ∧ k₁.LastTurn a ∧
        k₁.sched = some k₂ ∧ k₂.UserQ (l ++ [a]) := by
  induction calls generalizing k m with
  | nil =>
      rw [List.count_nil] at hcount
      omega
  | cons call calls ih =>
      obtain ⟨mid, hstep, hmidRun⟩ := exists_of_run_cons hrun
      by_cases hcall : call = .sched
      · subst hcall
        by_cases hlast : k.LastTurn a
        · obtain ⟨k₂, hsched, hq, -⟩ := sched_turn h.userQ hlast
          exact ⟨[], calls, k, k₂, rfl, by rw [List.count_nil]; omega, rfl, h.userQ, hlast,
            hsched, hq⟩
        · -- The head has one tick less.
          have hmid : mid = k.setProc a { k.proc a with pTicks := (k.proc a).pTicks - 1 } :=
            Option.some.inj (hstep.symm.trans (sched_stay h.userQ hlast))
          obtain ⟨hne, hdue⟩ := due_tick hlast
          rw [← hmid] at hdue
          have hmid' : mid.Queued (a :: l) := by
            rw [hmid]
            exact h.setProc rfl rfl
          rw [List.count_cons_self] at hcount
          obtain ⟨pre, post, k₁, k₂, rfl, hlt, hpre, hrest⟩ :=
            ih hmid' (m := m - 1) (by omega) (by omega) (by omega) hmidRun
          refine ⟨.sched :: pre, post, k₁, k₂, rfl, ?_, ?_, hrest⟩
          · rw [List.count_cons_self]
            omega
          · rw [run, hstep]
            exact hpre
      · obtain ⟨hmid, hsame⟩ := step_keeps h hcall hstep
        obtain ⟨hticks, hfirst⟩ := hsame a List.mem_cons_self
        have hdue : mid.due a = k.due a := by
          rw [due, due, hticks, hfirst]
        rw [List.count_cons_of_ne hcall] at hcount
        obtain ⟨pre, post, k₁, k₂, rfl, hlt, hpre, hrest⟩ :=
          ih hmid (m := m) (by omega) (by omega) hcount hmidRun
        refine ⟨call :: pre, post, k₁, k₂, rfl, ?_, ?_, hrest⟩
        · rw [List.count_cons_of_ne hcall]
          exact hlt
        · rw [run, hstep]
          exact hpre

/-! ### The quanta -/

/-- The quanta are positive, and together they are 100. -/
structure Quanta (k : Kernel) : Prop where
  range : ∀ group, 1 ≤ k.procTime group ∧ k.procTime group ≤ 99
  sum : k.procTime .groupA + k.procTime .groupB = 100

/-- The invariant of the runs in which the proportions are sensible. -/
structure Inv (k : Kernel) (l : List Int) : Prop where
  queued : k.Queued l
  quanta : k.Quanta
  ticks : ∀ i ∈ l, 1 ≤ (k.proc i).pTicks ∧ (k.proc i).pTicks ≤ 99

/-- A call of `set_scheduler` that has an effect asks for a proportion in 1..99. -/
def Sensible (k : Kernel) : Call → Prop
  | .setsched caller x => (k.proc caller).pGroup = .groupA → 1 ≤ x ∧ x ≤ 99
  | _ => True

/-- Other calls than `sched` keep the quanta positive, when `set_scheduler` is called with sensible
arguments. -/
theorem step_quanta (h : k.Quanta) (hcall : call ≠ .sched) (hsensible : k.Sensible call)
    (hstep : k.step call = some k') : k'.Quanta := by
  cases call with
  | sched => exact absurd rfl hcall
  | fork proc1 proc2 pid =>
      obtain ⟨-, p, rfl, -⟩ := doFork_spec hstep
      exact ⟨h.range, h.sum⟩
  | setsched caller x =>
      rcases setsched_procTime hstep with htime | ⟨hgroup, hA, hB⟩
      · exact ⟨htime ▸ h.range, htime ▸ h.sum⟩
      · have hx := hsensible hgroup
        constructor
        · intro group
          cases group with
          | groupA =>
              rw [hA]
              exact hx
          | groupB =>
              rw [hB]
              omega
        · rw [hA, hB]
          omega
  | chgroup caller =>
      obtain ⟨-, -, htime, -⟩ := chgroup_proc hstep
      exact ⟨htime ▸ h.range, htime ▸ h.sum⟩

/-- `sched` keeps the invariant, and it does not fail. -/
theorem sched_inv (h : k.Inv l) : ∃ k' l', k.sched = some k' ∧ k'.Inv l' := by
  cases l with
  | nil => exact ⟨k, [], sched_nil h.queued.userQ, h⟩
  | cons a l =>
      have ha := h.ticks a List.mem_cons_self
      by_cases hlast : k.LastTurn a
      · obtain ⟨k', hsched, hq, htime, hpriority, hother, hself⟩ :=
          sched_turn h.queued.userQ hlast
        have hmem : ∀ i, i ∈ l ++ [a] → i ∈ a :: l := by
          intro i hi
          rcases List.mem_append.mp hi with hi | hi
          · exact List.mem_cons_of_mem a hi
          · exact List.mem_singleton.mp hi ▸ List.mem_cons_self
        refine ⟨k', l ++ [a], hsched, ⟨hq, ?_⟩, ⟨htime ▸ h.quanta.range, htime ▸ h.quanta.sum⟩, ?_⟩
        · intro i hi
          rw [hpriority]
          exact h.queued.inUse i (hmem i hi)
        · intro i hi
          by_cases hia : i = a
          · subst hia
            rcases hself with hsame | ⟨group, hgroup⟩
            · rw [hsame]
              exact ha
            · rw [hgroup]
              exact h.quanta.range group
          · rw [hother i hia]
            exact h.ticks i (hmem i hi)
      · refine ⟨_, a :: l, sched_stay h.queued.userQ hlast, h.queued.setProc rfl rfl,
          ⟨h.quanta.range, h.quanta.sum⟩, ?_⟩
        intro i hi
        by_cases hia : i = a
        · subst hia
          have hne : (k.proc i).pTicks ≠ 1 := fun hticks => hlast (Or.inr hticks)
          simp only [setProc_proc_self]
          omega
        · rw [setProc_proc_of_ne _ hia]
          exact h.ticks i hi

/-- Each call keeps the invariant. -/
theorem step_inv (h : k.Inv l) (hsensible : k.Sensible call) (hstep : k.step call = some k') :
    ∃ l', k'.Inv l' := by
  by_cases hcall : call = .sched
  · subst hcall
    obtain ⟨k₁, l', hsched, hinv⟩ := sched_inv h
    have hsame : k₁ = k' := Option.some.inj (hsched.symm.trans hstep)
    exact ⟨l', hsame ▸ hinv⟩
  · obtain ⟨hqueued, hsame⟩ := step_keeps h.queued hcall hstep
    refine ⟨l, hqueued, step_quanta h.quanta hcall hsensible hstep, ?_⟩
    intro i hi
    rw [(hsame i hi).1]
    exact h.ticks i hi

/-- Any number of calls of `sched`. -/
theorem run_sched (h : k.Inv l) (m : Nat) :
    ∃ k', k.run (List.replicate m .sched) = some k' := by
  induction m generalizing k l with
  | zero => exact ⟨k, rfl⟩
  | succ m ih =>
      obtain ⟨mid, l', hsched, hinv⟩ := sched_inv h
      obtain ⟨k', hrun⟩ := ih hinv
      refine ⟨k', ?_⟩
      rw [List.replicate_succ, run, step, hsched]
      exact hrun

/-- What users can rely on in a state. -/
structure Fair (k : Kernel) : Prop where
  quanta : k.Quanta
  ticks : ∀ l, k.UserQ l → ∀ i ∈ l, 1 ≤ (k.proc i).pTicks ∧ (k.proc i).pTicks ≤ 99
  /-- At most 99 calls of `sched` put the head at the end of the queue. -/
  turn : ∀ a l, k.UserQ (a :: l) → ∃ m < 99, ∃ k₁ k₂,
    k.run (List.replicate m .sched) = some k₁ ∧ k₁.UserQ (a :: l) ∧ k₁.LastTurn a ∧
      k₁.sched = some k₂ ∧ k₂.UserQ (l ++ [a])

/-- What the invariant means: quanta and ticks are from 1 to 99, and at most 99 calls put the head
at the end of the queue. -/
theorem Inv.fair (h : k.Inv l) : k.Fair := by
  refine ⟨h.quanta, ?_, ?_⟩
  · intro l' hq
    rw [hq.unique h.queued.userQ]
    exact h.ticks
  · intro a l' hq
    have hl : a :: l' = l := hq.unique h.queued.userQ
    subst hl
    have ha := h.ticks a List.mem_cons_self
    have hdue : 1 ≤ k.due a ∧ k.due a ≤ 99 := by
      rw [due]
      split_ifs
      · omega
      · exact ha
    obtain ⟨k', hrun⟩ := run_sched h 99
    obtain ⟨pre, post, k₁, k₂, hsplit, hlt, hpre, hrest⟩ :=
      turn_within h.queued hdue.1 (m := 99) hdue.2 (by rw [List.count_replicate_self]) hrun
    -- All calls of this run are calls of `sched`.
    have hall : ∀ call ∈ pre, call = .sched := fun call hcall =>
      List.eq_of_mem_replicate (hsplit ▸ List.mem_append_left _ hcall)
    have hpre' : pre = List.replicate pre.length .sched := List.eq_replicate_of_mem hall
    have hcount : pre.count .sched = pre.length := List.count_eq_length.mpr fun call hcall =>
      (hall call hcall).symm
    exact ⟨pre.length, hcount ▸ hlt, k₁, k₂, hpre' ▸ hpre, hrest⟩

/-- In a run that asks for sensible proportions the invariant holds all the time. -/
theorem run_inv (h : k.Inv l)
    (hsensible : ∀ pre caller x k₁, pre ++ [.setsched caller x] <+: calls → k.run pre = some k₁ →
      k₁.Sensible (.setsched caller x))
    {pre : List Call} (hpre : pre <+: calls) (hrun : k.run pre = some k') : ∃ l', k'.Inv l' := by
  induction pre generalizing k l calls with
  | nil => exact ⟨l, Option.some.inj hrun ▸ h⟩
  | cons call pre ih =>
      obtain ⟨post, rfl⟩ := hpre
      obtain ⟨mid, hstep, hrun⟩ := exists_of_run_cons hrun
      have hcall : k.Sensible call := by
        cases call with
        | setsched caller x => exact hsensible [] caller x k ⟨pre ++ post, rfl⟩ rfl
        | _ => trivial
      obtain ⟨l₁, hmid⟩ := step_inv h hcall hstep
      have hrest : ∀ pre₁ caller x k₁, pre₁ ++ [.setsched caller x] <+: pre ++ post →
          mid.run pre₁ = some k₁ → k₁.Sensible (.setsched caller x) := by
        intro pre₁ caller x k₁ hpre₁ hrun₁
        refine hsensible (call :: pre₁) caller x k₁ (List.cons_prefix_cons.mpr ⟨rfl, hpre₁⟩) ?_
        rw [run, hstep]
        exact hrun₁
      exact ih hmid hrest (List.prefix_append pre post) hrun

/-- A call of `set_scheduler` after a run. -/
theorem run_setsched {pre : List Call} {caller x : Int} (hrun : k.run pre = some k') :
    k.run (pre ++ [.setsched caller x]) = some (k'.doSetsched caller x).2 := by
  induction pre generalizing k with
  | nil =>
      rw [← Option.some.inj hrun]
      rfl
  | cons call pre ih =>
      obtain ⟨mid, hstep, hmidRun⟩ := exists_of_run_cons hrun
      rw [List.cons_append, run, hstep]
      exact ih hmidRun

end

/-- Any calls in any order, by any callers, from a state with sensible quanta. All states of the run
are fair just when no process of the group A asks for a proportion outside 1..99. -/
theorem fair_iff (k₀ : Kernel) (l₀ : List Int) (h : k₀.Inv l₀) (calls : List Call) :
    (∀ pre k, pre <+: calls → k₀.run pre = some k → k.Fair) ↔
      ∀ pre caller x k, pre ++ [.setsched caller x] <+: calls → k₀.run pre = some k →
        (k.proc caller).pGroup = .groupA → 1 ≤ x ∧ x ≤ 99 := by
  constructor
  · intro hfair pre caller x k hpre hrun hgroup
    have hquanta := (hfair _ _ hpre (run_setsched hrun)).quanta.range .groupA
    rw [doSetsched, setScheduler, hgroup] at hquanta
    exact hquanta
  · intro hsensible pre k hpre hrun
    obtain ⟨l, hinv⟩ := run_inv h hsensible hpre hrun
    exact hinv.fair

/-! ### Two processes -/

/-- A user process with one tick left. -/
def tinyProc (pNr : Int) (pGroup : Group) (pNextready : Option Int) : Proc where
  pNr
  pPriority := .user
  pFlags _ := false
  pLdtSel := 0
  pPending := []
  pPendcount := 0
  pPid := pNr
  retreg := 0
  userTime := 0
  sysTime := 0
  childUtime := 0
  childStime := 0
  pGroup
  pTicks := 1
  pFirst := 0
  pNextready

/-- The process 0 of the group A is in front of the process 1 of the group B. -/
def tinyKernel : Kernel where
  proc i := if i = 0 then tinyProc 0 .groupA (some 1) else tinyProc i .groupB none
  rdyHead := some 0
  rdyTail := some 1
  procTime
    | .groupA => 30
    | .groupB => 70

/-- Two children in the queue, in their first turns. -/
theorem tinyKernel_inv : tinyKernel.Inv [0, 1] :=
  ⟨⟨⟨⟨rfl, rfl, rfl⟩, fun _ => rfl⟩, by decide⟩,
    ⟨fun group => by cases group <;> decide, rfl⟩, by decide⟩

/-- Calls of `set_scheduler` that keep both shares positive. -/
theorem fair_iff_tiny : tinyKernel.Inv [0, 1] ∧
    ∀ pre k, pre <+: [.setsched 0 60, .sched, .chgroup 1, .setsched 1 99] →
      tinyKernel.run pre = some k → k.Fair := by
  refine ⟨tinyKernel_inv, (fair_iff tinyKernel [0, 1] tinyKernel_inv _).mpr ?_⟩
  intro pre caller x k hpre hrun hgroup
  have hmem : Call.setsched caller x ∈ [.setsched 0 60, .sched, .chgroup 1, .setsched 1 99] :=
    hpre.subset (List.mem_append_right pre List.mem_cons_self)
  have hx : caller = 0 ∧ x = 60 ∨ caller = 1 ∧ x = 99 := by simpa using hmem
  omega

/-- The process 0 has asked for 0 percent for its group, and both processes have had their turn. -/
def tinyStarved : Kernel := (tinyKernel.run [.setsched 0 0, .sched, .sched]).getD tinyKernel

/-- Both processes are in the queue still. -/
theorem tinyStarved_userQ : tinyStarved.UserQ [0, 1] := ⟨⟨rfl, rfl, rfl⟩, fun _ => rfl⟩

/-- The process 0 got 0 ticks when its turn was over, and its next turn never ends. -/
theorem not_fair_zero : ¬ ∀ calls k, tinyKernel.run calls = some k → k.Fair := by
  intro hfair
  have hrun : tinyKernel.run [.setsched 0 0, .sched, .sched] = some tinyStarved := rfl
  obtain ⟨m, -, k₁, k₂, hrun₁, -, hlast, -⟩ := (hfair _ _ hrun).turn 0 [1] tinyStarved_userQ
  obtain ⟨k', hrun', -, hfirst, hticks⟩ :=
    stays_of_nonpos tinyStarved_userQ (by decide) (by decide) m
  have hsame : k₁ = k' := Option.some.inj (hrun₁.symm.trans hrun')
  subst hsame
  rcases hlast with hone | hone
  · exact hfirst hone
  · omega

end Soi.Szeregowanie.Kernel
