import Mathlib.Algebra.GroupWithZero.Nat
import Mathlib.Data.List.Count
import Mathlib.Data.List.Rotate
import Soi.Proofs.Szeregowanie.Rotation

/-!
# `Soi.Proofs.Szeregowanie.Turns`: how long the turns of the processes are

A turn of a process ends when `sched` puts it at the end of the queue. `watch` is a run that writes
the turns that are over into a `Log`, with the number of calls of `sched` of each of them. `granted`
is how many calls the next turn of a process gets, from its turns that are over: one for the first
turn, what it got at its fork for the second one, and what `PROC_TIME` held for its group at the end
of the turn before for a later one.

The process at the head has got `granted` calls less `p_ticks`, and a process behind it has
`granted` in `p_ticks` (`Stage`). This is the invariant of a run (`watch_watched`), and every turn
in the log is as long as what was granted.
-/

set_option autoImplicit false

namespace Soi.Szeregowanie.Kernel

/-! ### The log of a run -/

/-- A turn of a process at the head of the queue, which is over. -/
structure Turn where
  process : Int
  /-- How many calls of `sched` it took. -/
  calls : Nat
  /-- The states before and after the last one of these calls. -/
  before : Kernel
  after : Kernel

/-- What `PROC_TIME` holds for the group of the process at the end of its turn. -/
def Turn.quantum (t : Turn) : Int := t.before.procTime (t.before.proc t.process).pGroup

/-- The turns that are over, the oldest one first, and the calls of `sched` in the turn of the
process that is at the head now. -/
structure Log where
  turns : List Turn
  calls : Nat

/-- The log at the start of a run. -/
def Log.empty : Log := ⟨[], 0⟩

instance (k : Kernel) (a : Int) : Decidable (k.LastTurn a) :=
  inferInstanceAs (Decidable (_ ∨ _))

/-- The log after a call that leads from the state `k` to the state `k'`. -/
def Log.note (log : Log) (k : Kernel) (call : Call) (k' : Kernel) : Log :=
  match call, k.rdyHead with
  | .sched, some a =>
      if k.LastTurn a then
        ⟨log.turns ++ [⟨a, log.calls + 1, k, k'⟩], 0⟩
      else
        ⟨log.turns, log.calls + 1⟩
  | _, _ => log

/-- A run, with the log. -/
def watch (k : Kernel) (log : Log) : List Call → Option (Kernel × Log)
  | [] => some (k, log)
  | call :: calls =>
      match k.step call with
      | none => none
      | some k' => k'.watch (log.note k call k') calls

/-- The turns of the process `a`. -/
def turnsOf (turns : List Turn) (a : Int) : List Turn := turns.filter fun t => t.process = a

/-- How many calls of `sched` the next turn of a process gets, when these turns of it are over and
`fork` is the quantum at its fork. -/
def granted (fork : Int) : List Turn → Int
  | [] => 1
  | [_] => fork
  | _ :: t :: ts => ((t :: ts).getLast (List.cons_ne_nil t ts)).quantum

/-- A turn after the turns `ts` lasts for the calls that it was granted. The first turn of a process
is not charged. The last call of the turn puts its process, which is the head, at the end of the
queue. -/
structure TurnExact (fork : Int → Int) (ts : List Turn) (t : Turn) : Prop where
  calls : (t.calls : Int) = granted (fork t.process) (turnsOf ts t.process)
  first : turnsOf ts t.process = [] →
    (t.after.proc t.process).pTicks = (t.before.proc t.process).pTicks
  last : t.before.sched = some t.after ∧ ∃ rest, t.before.UserQ (t.process :: rest) ∧
    t.after.UserQ (rest ++ [t.process])

/-- All the turns that are over are exact. -/
def Exact (fork : Int → Int) (turns : List Turn) : Prop :=
  ∀ ts t ts', turns = ts ++ t :: ts' → TurnExact fork ts t

/-- The entries of `PROC_TIME` are in 1..99. -/
def InRange (k : Kernel) : Prop := ∀ group, 1 ≤ k.procTime group ∧ k.procTime group ≤ 99

/-- `do_fork` has made the process `i`, in a state in which `PROC_TIME` held `quantum` for the group
that the process got. Since then its turns and its ticks are as they were. -/
def Forked (k : Kernel) (i quantum : Int) : Prop :=
  ∃ (atFork : Kernel) (proc1 pid : Int) (forked : Kernel),
    atFork.doFork proc1 i pid = some forked ∧ atFork.InRange ∧
      quantum = atFork.procTime (forked.proc i).pGroup ∧
      (k.proc i).pFirst = (forked.proc i).pFirst ∧ (k.proc i).pTicks = (forked.proc i).pTicks

/-- The calls of a run in which no process enters the queue. -/
def Allowed : Call → Prop
  | .fork _ _ _ => False
  | .setsched _ x => 1 ≤ x ∧ x ≤ 99
  | .chgroup _ => True
  | .sched => True

section
variable {k k' : Kernel} {log log' : Log} {a i : Int} {l l₁ l₂ : List Int} {call : Call}
  {calls calls' : List Call} {fork : Int → Int} {ts : List Turn} {t : Turn} {q : Int}

/-! ### Runs with a log -/

/-- The log of a run with one more call in front. -/
theorem watch_cons (hstep : k.step call = some k') :
    k.watch log (call :: calls) = k'.watch (log.note k call k') calls := by
  rw [watch, hstep]

/-- A run with a call in front can be taken apart behind this call. -/
theorem exists_of_watch_cons (h : k.watch log (call :: calls) = some (k', log')) :
    ∃ mid, k.step call = some mid ∧ mid.watch (log.note k call mid) calls = some (k', log') := by
  rw [watch] at h
  cases hstep : k.step call with
  | none =>
      rw [hstep] at h
      cases h
  | some mid =>
      rw [hstep] at h
      exact ⟨mid, rfl, h⟩

/-- The log does not change the run. -/
theorem run_of_watch (h : k.watch log calls = some (k', log')) : k.run calls = some k' := by
  induction calls generalizing k log with
  | nil =>
      cases h
      rfl
  | cons call calls ih =>
      obtain ⟨mid, hstep, hwatch⟩ := exists_of_watch_cons h
      rw [run, hstep]
      exact ih hwatch

/-- One run after the other, with the log of the first one at the start of the second one. -/
theorem watch_append (h : k.watch log calls = some (k', log')) :
    k.watch log (calls ++ calls') = k'.watch log' calls' := by
  induction calls generalizing k log with
  | nil =>
      cases h
      rfl
  | cons call calls ih =>
      obtain ⟨mid, hstep, hwatch⟩ := exists_of_watch_cons h
      rw [List.cons_append, watch_cons hstep]
      exact ih hwatch

/-- Only calls of `sched` are counted. -/
theorem note_of_ne (hcall : call ≠ .sched) : log.note k call k' = log := by
  cases call with
  | sched => exact absurd rfl hcall
  | _ => rfl

/-- With no user ready there is nobody to count for. -/
theorem note_nil (hhead : k.rdyHead = none) : log.note k call k' = log := by
  cases call with
  | sched => simp only [Log.note, hhead]
  | _ => rfl

/-- The last call of a turn ends it, with all the calls that were counted and this one. -/
theorem note_turn (hhead : k.rdyHead = some a) (hlast : k.LastTurn a) :
    log.note k .sched k' = ⟨log.turns ++ [⟨a, log.calls + 1, k, k'⟩], 0⟩ := by
  simp only [Log.note, hhead, if_pos hlast]

/-- Another call of `sched` counts for the turn that goes on. -/
theorem note_stay (hhead : k.rdyHead = some a) (hlast : ¬ k.LastTurn a) :
    log.note k .sched k' = ⟨log.turns, log.calls + 1⟩ := by
  simp only [Log.note, hhead, if_neg hlast]

/-! ### What is granted -/

/-- A turn of the process at the end of the log is its last one. -/
theorem turnsOf_concat_self (hp : t.process = a) : turnsOf (ts ++ [t]) a = turnsOf ts a ++ [t] := by
  rw [turnsOf, List.filter_append, List.filter_cons_of_pos (by simpa using hp)]
  rfl

/-- A turn of another process at the end of the log changes nothing. -/
theorem turnsOf_concat_of_ne (hp : t.process ≠ a) : turnsOf (ts ++ [t]) a = turnsOf ts a := by
  rw [turnsOf, List.filter_append, List.filter_cons_of_neg (by simpa using hp)]
  exact List.append_nil _

/-- From the second turn on the end of a turn decides about the next one. -/
theorem granted_concat (hts : ts ≠ []) : granted q (ts ++ [t]) = t.quantum := by
  cases ts with
  | nil => exact absurd rfl hts
  | cons s ts =>
      cases ts with
      | nil => rfl
      | cons s' ts =>
          show (List.getLast (s' :: ts ++ [t]) _).quantum = t.quantum
          rw [List.getLast_append_singleton]

/-- Before the first turn has ended there is nothing to compare. -/
theorem exact_nil : Exact fork [] := by
  intro ts t ts' h
  exact absurd h (by simp)

/-- One more exact turn. -/
theorem Exact.concat (h : Exact fork ts) (ht : TurnExact fork ts t) : Exact fork (ts ++ [t]) := by
  intro ss s ss' hsplit
  rcases List.eq_nil_or_concat' ss' with rfl | ⟨ss', s', rfl⟩
  · obtain ⟨rfl, hs⟩ := List.append_inj' hsplit rfl
    rw [← (List.cons.inj hs).1]
    exact ht
  · have hsplit' : ts ++ [t] = (ss ++ s :: ss') ++ [s'] := by
      rw [hsplit, List.append_assoc, List.cons_append]
    exact h ss s ss' (List.append_inj' hsplit' rfl).1

/-! ### The invariant -/

/-- Proportions in 1..99 keep the entries in 1..99. -/
theorem setsched_inRange {caller x : Int} (h : k.InRange) (hx : 1 ≤ x ∧ x ≤ 99)
    (hstep : k.step (.setsched caller x) = some k') : k'.InRange := by
  intro group
  rcases setsched_procTime hstep with htime | ⟨-, hA, hB⟩
  · rw [htime]
    exact h group
  · cases group with
    | groupA =>
        rw [hA]
        exact hx
    | groupB =>
        rw [hB]
        omega

/-- Where the process `i` stands in its turns. It has got `used` calls of `sched` in the turn that
is not over. -/
structure Stage (k : Kernel) (turns : List Turn) (fork i : Int) (used : Nat) : Prop where
  /-- Its first turn is still to come. -/
  fresh : turnsOf turns i = [] →
    (k.proc i).pFirst = 1 ∧ (k.proc i).pTicks = fork ∧ used = 0
  later : turnsOf turns i ≠ [] →
    (k.proc i).pFirst ≠ 1 ∧ (k.proc i).pTicks + used = granted fork (turnsOf turns i)
  ticks : 1 ≤ (k.proc i).pTicks ∧ (k.proc i).pTicks ≤ 99

/-- Only the first turn and the ticks of the process matter. -/
theorem Stage.congr {turns' : List Turn} {used : Nat} (h : Stage k ts q i used)
    (hturns : turnsOf turns' i = turnsOf ts i) (hfirst : (k'.proc i).pFirst = (k.proc i).pFirst)
    (hticks : (k'.proc i).pTicks = (k.proc i).pTicks) : Stage k' turns' q i used := by
  constructor
  · rw [hturns, hfirst, hticks]
    exact h.fresh
  · rw [hturns, hfirst, hticks]
    exact h.later
  · rw [hticks]
    exact h.ticks

/-- The turn that is not over has not got all its calls. -/
theorem Stage.used_lt {used : Nat} (h : Stage k ts q i used) :
    (used : Int) < granted q (turnsOf ts i) := by
  by_cases hfresh : turnsOf ts i = []
  · obtain ⟨-, -, rfl⟩ := h.fresh hfresh
    rw [hfresh]
    exact Int.zero_lt_one
  · have hpos := h.ticks.1
    have hgranted := (h.later hfresh).2
    omega

/-- The invariant of a run: the head has used the calls of the log, and the others have used
none. Without a head no call is used. -/
structure Watched (k : Kernel) (log : Log) (fork : Int → Int) (l : List Int) : Prop where
  userQ : k.UserQ l
  range : k.InRange
  exact : Exact fork log.turns
  head : ∀ a rest, l = a :: rest → Stage k log.turns (fork a) a log.calls
  behind : ∀ i ∈ l.tail, Stage k log.turns (fork i) i 0
  idle : l = [] → log.calls = 0

/-- Processes that have just been forked. -/
theorem watched_forked (hq : k.UserQ l) (hrange : k.InRange)
    (hfork : ∀ i ∈ l, k.Forked i (fork i)) : Watched k Log.empty fork l := by
  have hstage : ∀ i ∈ l, Stage k [] (fork i) i 0 := by
    intro i hi
    obtain ⟨atFork, proc1, pid, forked, hdoFork, hquanta, hquantum, hfirst, hticks⟩ := hfork i hi
    obtain ⟨-, p, rfl, hfirst', hticks'⟩ := doFork_spec hdoFork
    rw [setProc_proc_self] at hquantum hfirst hticks
    rw [hfirst'] at hfirst
    rw [hticks', ← hquantum] at hticks
    refine ⟨fun _ => ⟨hfirst, hticks, rfl⟩, fun h => absurd rfl h, ?_⟩
    rw [hticks, hquantum]
    exact hquanta _
  refine ⟨hq, hrange, exact_nil, ?_, ?_, fun _ => rfl⟩
  · rintro a rest rfl
    exact hstage a List.mem_cons_self
  · intro i hi
    exact hstage i (List.mem_of_mem_tail hi)

/-- A call that is not one of `sched` changes neither the queue nor the ticks. -/
theorem Watched.step (h : Watched k log fork l) (hallowed : Allowed call) (hcall : call ≠ .sched)
    (hstep : k.step call = some k') : Watched k' (log.note k call k') fork l := by
  rw [note_of_ne hcall]
  have hkeeps : k'.InRange ∧ k'.rdyHead = k.rdyHead ∧ k'.rdyTail = k.rdyTail ∧
      ∀ i, ∃ group, k'.proc i = { k.proc i with pGroup := group } := by
    cases call with
    | sched => exact absurd rfl hcall
    | fork proc1 proc2 pid => exact hallowed.elim
    | setsched caller x =>
        obtain ⟨hhead, htail, hproc⟩ := setsched_proc hstep
        refine ⟨?_, hhead, htail, fun i => ⟨(k.proc i).pGroup, congrFun hproc i⟩⟩
        exact setsched_inRange h.range hallowed hstep
    | chgroup caller =>
        obtain ⟨hhead, htail, htime, hproc⟩ := chgroup_proc hstep
        refine ⟨?_, hhead, htail, hproc⟩
        rw [InRange, htime]
        exact h.range
  obtain ⟨hrange, hhead, htail, hproc⟩ := hkeeps
  have hstage : ∀ i used, Stage k log.turns (fork i) i used →
      Stage k' log.turns (fork i) i used := by
    intro i used hstage
    obtain ⟨group, hi⟩ := hproc i
    refine hstage.congr rfl ?_ ?_
    · rw [hi]
    · rw [hi]
  refine ⟨h.userQ.congr hhead htail ?_, hrange, h.exact, ?_, ?_, h.idle⟩
  · intro i _
    obtain ⟨group, hi⟩ := hproc i
    rw [hi]
  · intro a rest hl
    exact hstage a log.calls (h.head a rest hl)
  · intro i hi
    exact hstage i 0 (h.behind i hi)

/-- The end of a turn, once the turn is known to be exact and the process has its next calls. -/
theorem Watched.turn {p : Proc} (h : Watched k log fork (a :: l)) (hlast : k.LastTurn a)
    (hrotated : k.Rotated a l p k')
    (hexact : TurnExact fork log.turns ⟨a, log.calls + 1, k, k'⟩)
    (ha : Stage k' (log.turns ++ [⟨a, log.calls + 1, k, k'⟩]) (fork a) a 0) :
    Watched k' (log.note k .sched k') fork (l ++ [a]) := by
  rw [note_turn h.userQ.seg.1 hlast]
  have hnodup : a ∉ l := (List.nodup_cons.mp h.userQ.seg.nodup).1
  have hstage : ∀ i ∈ l ++ [a],
      Stage k' (log.turns ++ [⟨a, log.calls + 1, k, k'⟩]) (fork i) i 0 := by
    intro i hi
    rcases List.mem_append.mp hi with hi | hi
    · have hia : i ≠ a := fun hia => hnodup (hia ▸ hi)
      obtain ⟨next, hproc⟩ := hrotated.other i hia
      refine (h.behind i hi).congr (turnsOf_concat_of_ne (Ne.symm hia)) ?_ ?_
      · rw [hproc]
      · rw [hproc]
    · rw [List.mem_singleton.mp hi]
      exact ha
  refine ⟨hrotated.userQ, ?_, h.exact.concat hexact, ?_, ?_, fun _ => rfl⟩
  · rw [InRange, hrotated.procTime]
    exact h.range
  · intro b rest hl
    exact hstage b (hl ▸ List.mem_cons_self)
  · intro i hi
    exact hstage i (List.mem_of_mem_tail hi)

/-- The first turn: the process keeps the ticks of its fork. -/
theorem Watched.sched_first (h : Watched k log fork (a :: l)) (hfirst : (k.proc a).pFirst = 1) :
    ∃ k', k.sched = some k' ∧ Watched k' (log.note k .sched k') fork (l ++ [a]) := by
  have ha := h.head a l rfl
  have hfresh : turnsOf log.turns a = [] := by
    by_contra hne
    exact (ha.later hne).1 hfirst
  obtain ⟨-, hticks, hused⟩ := ha.fresh hfresh
  obtain ⟨k', hsched, hrotated⟩ := Kernel.sched_first h.userQ hfirst
  obtain ⟨next, hproc⟩ := hrotated.head
  have hexact : TurnExact fork log.turns ⟨a, log.calls + 1, k, k'⟩ := by
    refine ⟨?_, ?_, hsched, l, h.userQ, hrotated.userQ⟩
    · show ((log.calls + 1 : Nat) : Int) = granted (fork a) (turnsOf log.turns a)
      rw [hfresh, hused]
      rfl
    · intro _
      show (k'.proc a).pTicks = (k.proc a).pTicks
      rw [hproc]
  refine ⟨k', hsched, h.turn (Or.inl hfirst) hrotated hexact ⟨?_, ?_, ?_⟩⟩
  · rw [turnsOf_concat_self rfl]
    exact fun hnil => absurd hnil (by simp)
  · intro _
    rw [turnsOf_concat_self rfl, hfresh, hproc]
    refine ⟨Int.zero_ne_one, ?_⟩
    show (k.proc a).pTicks + 0 = fork a
    rw [hticks, Int.add_zero]
  · rw [hproc]
    exact ha.ticks

/-- A process that is not there for the first time has had its first turn. -/
theorem Watched.later (h : Watched k log fork (a :: l)) (hfirst : (k.proc a).pFirst ≠ 1) :
    turnsOf log.turns a ≠ [] ∧
      (k.proc a).pTicks + log.calls = granted (fork a) (turnsOf log.turns a) := by
  have ha := h.head a l rfl
  have hlater : turnsOf log.turns a ≠ [] := fun hnil => hfirst (ha.fresh hnil).1
  exact ⟨hlater, (ha.later hlater).2⟩

/-- The last tick of a later turn: the next calls are those of `PROC_TIME` now. -/
theorem Watched.sched_over (h : Watched k log fork (a :: l)) (hfirst : (k.proc a).pFirst ≠ 1)
    (hticks : (k.proc a).pTicks = 1) :
    ∃ k', k.sched = some k' ∧ Watched k' (log.note k .sched k') fork (l ++ [a]) := by
  obtain ⟨hlater, hgranted⟩ := h.later hfirst
  obtain ⟨k', hsched, hrotated⟩ := Kernel.sched_over h.userQ hfirst hticks
  obtain ⟨next, hproc⟩ := hrotated.head
  have hexact : TurnExact fork log.turns ⟨a, log.calls + 1, k, k'⟩ := by
    refine ⟨?_, fun hnil => absurd hnil hlater, hsched, l, h.userQ, hrotated.userQ⟩
    show ((log.calls + 1 : Nat) : Int) = granted (fork a) (turnsOf log.turns a)
    omega
  refine ⟨k', hsched, h.turn (Or.inr hticks) hrotated hexact ⟨?_, ?_, ?_⟩⟩
  · rw [turnsOf_concat_self rfl]
    exact fun hnil => absurd hnil (by simp)
  · intro _
    rw [turnsOf_concat_self rfl, granted_concat hlater, hproc]
    exact ⟨hfirst, Int.add_zero _⟩
  · rw [hproc]
    exact h.range _

/-- The last call of a turn, which is the first one or a later one. -/
theorem Watched.sched_last (h : Watched k log fork (a :: l)) (hlast : k.LastTurn a) :
    ∃ k', k.sched = some k' ∧ Watched k' (log.note k .sched k') fork (l ++ [a]) := by
  by_cases hfirst : (k.proc a).pFirst = 1
  · exact h.sched_first hfirst
  · exact h.sched_over hfirst (hlast.resolve_left hfirst)

/-- The turn goes on. -/
theorem Watched.sched_stay (h : Watched k log fork (a :: l)) (hlast : ¬ k.LastTurn a) :
    ∃ k', k.sched = some k' ∧ Watched k' (log.note k .sched k') fork (a :: l) := by
  have hfirst : (k.proc a).pFirst ≠ 1 := fun hfirst => hlast (Or.inl hfirst)
  have hticks : (k.proc a).pTicks ≠ 1 := fun hticks => hlast (Or.inr hticks)
  obtain ⟨hlater, hgranted⟩ := h.later hfirst
  have hpos := (h.head a l rfl).ticks
  have hnodup : a ∉ l := (List.nodup_cons.mp h.userQ.seg.nodup).1
  refine ⟨_, Kernel.sched_stay h.userQ hlast, ?_⟩
  rw [note_stay h.userQ.seg.1 hlast]
  refine ⟨h.userQ.setProc rfl, h.range, h.exact, ?_, ?_, fun hnil => absurd hnil (by simp)⟩
  · rintro b rest hl
    obtain ⟨rfl, rfl⟩ := List.cons.inj hl
    refine ⟨fun hnil => absurd hnil hlater, fun _ => ?_, ?_⟩
    · rw [setProc_proc_self]
      refine ⟨hfirst, ?_⟩
      show (k.proc a).pTicks - 1 + ((log.calls + 1 : Nat) : Int) = _
      rw [← hgranted]
      omega
    · rw [setProc_proc_self]
      show 1 ≤ (k.proc a).pTicks - 1 ∧ (k.proc a).pTicks - 1 ≤ 99
      omega
  · intro i hi
    have hia : i ≠ a := fun hia => hnodup (hia ▸ hi)
    refine (h.behind i hi).congr rfl ?_ ?_
    · rw [setProc_proc_of_ne _ hia]
    · rw [setProc_proc_of_ne _ hia]

/-- The head goes to the end of the queue. -/
theorem rotate_one (a : Int) (l : List Int) : (a :: l).rotate 1 = l ++ [a] := by
  rw [List.rotate_cons_succ, List.rotate_zero]

/-- `sched` keeps the invariant, and it does not fail. With the last call of a turn the queue is
rotated once, and with any other call it is as before. -/
theorem Watched.sched (h : Watched k log fork l) : ∃ k' n, k.sched = some k' ∧
    (log.note k .sched k').turns.length = log.turns.length + n ∧
    Watched k' (log.note k .sched k') fork (l.rotate n) := by
  cases l with
  | nil =>
      refine ⟨k, 0, sched_nil h.userQ, ?_, ?_⟩
      · rw [note_nil h.userQ.seg]
        rfl
      · rw [note_nil h.userQ.seg]
        exact h
  | cons a l =>
      by_cases hlast : k.LastTurn a
      · obtain ⟨k', hsched, hwatched⟩ := h.sched_last hlast
        refine ⟨k', 1, hsched, ?_, ?_⟩
        · rw [note_turn h.userQ.seg.1 hlast, List.length_append]
          rfl
        · rw [rotate_one]
          exact hwatched
      · obtain ⟨k', hsched, hwatched⟩ := h.sched_stay hlast
        refine ⟨k', 0, hsched, ?_, ?_⟩
        · rw [note_stay h.userQ.seg.1 hlast]
          rfl
        · rw [List.rotate_zero]
          exact hwatched

/-- Every run of allowed calls keeps the invariant, and it does not fail. The queue is rotated once
for each turn that is over, so that no other call moves a process. -/
theorem watch_watched (h : Watched k log fork l) (hcalls : ∀ call ∈ calls, Allowed call) :
    ∃ k' log' n, k.watch log calls = some (k', log') ∧
      log'.turns.length = log.turns.length + n ∧ Watched k' log' fork (l.rotate n) := by
  induction calls generalizing k log l with
  | nil =>
      refine ⟨k, log, 0, rfl, rfl, ?_⟩
      rw [List.rotate_zero]
      exact h
  | cons call calls ih =>
      obtain ⟨hcall, hcalls⟩ := List.forall_mem_cons.mp hcalls
      obtain ⟨mid, m, hstep, hlength, hmid⟩ : ∃ mid m, k.step call = some mid ∧
          (log.note k call mid).turns.length = log.turns.length + m ∧
          Watched mid (log.note k call mid) fork (l.rotate m) := by
        by_cases hsched : call = .sched
        · subst hsched
          exact h.sched
        · obtain ⟨mid, hstep⟩ : ∃ mid, k.step call = some mid := by
            cases call with
            | fork _ _ _ => exact hcall.elim
            | sched => exact absurd rfl hsched
            | _ => exact ⟨_, rfl⟩
          refine ⟨mid, 0, hstep, ?_, ?_⟩
          · rw [note_of_ne hsched]
            rfl
          · rw [List.rotate_zero]
            exact h.step hcall hsched hstep
      obtain ⟨k', log', n, hwatch, hlength', hwatched⟩ := ih hmid hcalls
      refine ⟨k', log', m + n, (watch_cons hstep).trans hwatch, ?_, ?_⟩
      · omega
      · rw [← List.rotate_rotate]
        exact hwatched

/-! ### The end of the turns -/

/-- The turn of the head ends after the calls that are due. -/
theorem Watched.ends {n : Nat} (h : Watched k log fork (a :: l)) (hdue : k.due a = n + 1) :
    ∃ k' t, k.watch log (List.replicate (n + 1) .sched) = some (k', ⟨log.turns ++ [t], 0⟩) ∧
      t.process = a ∧ Watched k' ⟨log.turns ++ [t], 0⟩ fork (l ++ [a]) := by
  -- Induction on the calls that are due. Each of them but the last one takes a tick.
  induction n generalizing k log with
  | zero =>
      have hlast : k.LastTurn a := by
        by_contra hlast
        exact (due_tick hlast).1 hdue
      obtain ⟨k', hsched, hwatched⟩ := h.sched_last hlast
      have hstep : k.step .sched = some k' := hsched
      have hnote := @note_turn k k' log a h.userQ.seg.1 hlast
      rw [hnote] at hwatched
      refine ⟨k', ⟨a, log.calls + 1, k, k'⟩, ?_, rfl, hwatched⟩
      rw [List.replicate_one, watch_cons hstep, hnote]
      rfl
  | succ n ih =>
      have hlast : ¬ k.LastTurn a := by
        intro hlast
        have hone := due_lastTurn hlast
        omega
      obtain ⟨mid, hsched, hwatched⟩ := h.sched_stay hlast
      have hstep : k.step .sched = some mid := hsched
      have hstay := Kernel.sched_stay h.userQ hlast
      obtain rfl := Option.some.inj (hstay.symm.trans hsched)
      have htick := (due_tick hlast).2
      obtain ⟨k', t, hwatch, hprocess, hwatched'⟩ := ih hwatched (by omega)
      rw [note_stay h.userQ.seg.1 hlast] at hwatch hwatched'
      refine ⟨k', t, ?_, hprocess, hwatched'⟩
      rw [List.replicate_succ, watch_cons hstep, note_stay h.userQ.seg.1 hlast]
      exact hwatch

/-- The calls that are due for the head are at most 99. -/
theorem Watched.due_le (h : Watched k log fork (a :: l)) : 1 ≤ k.due a ∧ k.due a ≤ 99 := by
  rw [due]
  split_ifs
  · omega
  · exact (h.head a l rfl).ticks

/-- The processes of `l₁` end their turns, one after the other. -/
theorem Watched.pass (h : Watched k log fork (l₁ ++ l₂)) (hidle : l₁ = [] → log.calls = 0) :
    ∃ m ≤ 99 * l₁.length, ∃ k' new,
      k.watch log (List.replicate m .sched) = some (k', ⟨log.turns ++ new, 0⟩) ∧
      (new.map fun t => t.process) = l₁ ∧ Watched k' ⟨log.turns ++ new, 0⟩ fork (l₂ ++ l₁) := by
  induction l₁ generalizing k log l₂ with
  | nil =>
      have hlog : log = ⟨log.turns ++ [], 0⟩ := by
        rw [List.append_nil, ← hidle rfl]
      refine ⟨0, Nat.zero_le _, k, [], ?_, rfl, ?_⟩
      · rw [← hlog]
        rfl
      · rw [← hlog, List.append_nil]
        exact h
  | cons a l₁ ih =>
      rw [List.cons_append] at h
      obtain ⟨hpos, hle⟩ := h.due_le
      obtain ⟨n, hn⟩ : ∃ n : Nat, k.due a = n + 1 := ⟨(k.due a).toNat - 1, by omega⟩
      obtain ⟨mid, t, hturn, hprocess, hmid⟩ := h.ends hn
      rw [List.append_assoc] at hmid
      obtain ⟨m, hm, k', new, hwatch, hnew, hwatched⟩ := ih hmid fun _ => rfl
      rw [List.append_assoc, List.append_assoc] at hwatched
      rw [List.append_assoc] at hwatch
      refine ⟨n + 1 + m, ?_, k', t :: new, ?_, ?_, hwatched⟩
      · rw [List.length_cons]
        omega
      · rw [List.replicate_add, watch_append hturn]
        exact hwatch
      · rw [List.map_cons, hnew, hprocess]

end

end Soi.Szeregowanie.Kernel
