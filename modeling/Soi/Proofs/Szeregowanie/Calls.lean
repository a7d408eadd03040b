import Soi.Proofs.Szeregowanie.Kernel
import Soi.Szeregowanie.Calls

/-!
# `Soi.Proofs.Szeregowanie.Calls`: what `test_grupa` prints

The calls go through MINIX, of which only `SystemTask` and `MemoryManager` are known. With these two
assumptions each call of `test_grupa` is that of the function of `zmiany_proc.c` (`getGroup_eq` and
the lemmas behind it), and nothing else of MINIX is used.

Between two system calls of `test_grupa` anything else can happen, but the group of a process is
only written by its own calls, and the slot of a process that is there is not given to a child
(`step_other`). `Follows` says where `test_grupa` is in its output, and every event keeps it. So a
process of the group B gets -1 once, changes its group, and has no error the second time.
-/

set_option autoImplicit false

namespace Soi.Szeregowanie

open Soi.Lib

namespace Kernel

/-- A call that the process `ppid` has not made. -/
def OfOther (ppid : Int) : Call → Prop
  | .setsched caller _ => caller ≠ ppid
  | .chgroup caller => caller ≠ ppid
  | _ => True

/-- A call that does not set the proportions. -/
def Quiet : Call → Prop
  | .setsched _ _ => False
  | _ => True

section
variable {k k' : Kernel} {call : Call} {ppid a : Int}

/-- `toTail` only writes pointers. -/
theorem toTail_proc (h : k.toTail a = some k') : k'.procTime = k.procTime ∧
    ∀ i, ∃ next, k'.proc i = { k.proc i with pNextready := next } := by
  rw [toTail] at h
  cases htail : k.rdyTail with
  | none =>
      rw [htail] at h
      cases h
  | some t =>
      rw [htail] at h
      obtain rfl := Option.some.inj h
      refine ⟨rfl, ?_⟩
      intro i
      obtain ⟨next, hnext⟩ := setNextready_proc (k := k) t (some a) i
      obtain ⟨next', hnext'⟩ := setNextready_proc (k := k.setNextready t (some a)) a none i
      refine ⟨next', ?_⟩
      rw [hnext] at hnext'
      exact hnext'

/-- What no call of `sched` writes. -/
structure SameGroups (k k' : Kernel) : Prop where
  procTime : k'.procTime = k.procTime
  group : ∀ i, (k'.proc i).pGroup = (k.proc i).pGroup
  priority : ∀ i, (k'.proc i).pPriority = (k.proc i).pPriority

/-- A write of a process that keeps its group and its priority. -/
theorem sameGroups_setProc {p : Proc} (hgroup : p.pGroup = (k.proc a).pGroup)
    (hpriority : p.pPriority = (k.proc a).pPriority) : k.SameGroups (k.setProc a p) := by
  refine ⟨rfl, ?_, ?_⟩
  · intro i
    by_cases hi : i = a
    · rw [hi, setProc_proc_self, hgroup]
    · rw [setProc_proc_of_ne p hi]
  · intro i
    by_cases hi : i = a
    · rw [hi, setProc_proc_self, hpriority]
    · rw [setProc_proc_of_ne p hi]

/-- A move to the tail of the queue writes links only, so that it keeps the groups. -/
theorem SameGroups.toTail (h : k.SameGroups k') {k'' : Kernel}
    (htoTail : k'.toTail a = some k'') : k.SameGroups k'' := by
  obtain ⟨htime, hproc⟩ := toTail_proc htoTail
  refine ⟨htime.trans h.procTime, ?_, ?_⟩
  · intro i
    obtain ⟨next, hi⟩ := hproc i
    rw [hi]
    exact h.group i
  · intro i
    obtain ⟨next, hi⟩ := hproc i
    rw [hi]
    exact h.priority i

/-- In any state, also when the pointers of the queue are of no use. -/
theorem sched_sameGroups (h : k.sched = some k') : k.SameGroups k' := by
  rw [sched] at h
  cases hhead : k.rdyHead with
  | none =>
      rw [hhead] at h
      obtain rfl := Option.some.inj h
      exact ⟨rfl, fun _ => rfl, fun _ => rfl⟩
  | some head =>
      simp only [hhead] at h
      split at h
      · refine SameGroups.toTail ?_ h
        exact sameGroups_setProc rfl rfl
      · split at h
        · refine SameGroups.toTail ?_ h
          exact sameGroups_setProc rfl rfl
        · obtain rfl := Option.some.inj h
          exact sameGroups_setProc rfl rfl

/-- The calls of the others, on the slot of a process that is there. -/
theorem step_other (hinUse : (k.proc ppid).pPriority ≠ .none) (hother : OfOther ppid call)
    (hstep : k.step call = some k') : (k'.proc ppid).pGroup = (k.proc ppid).pGroup ∧
      (k'.proc ppid).pPriority ≠ .none ∧ (Quiet call → k'.procTime = k.procTime) := by
  cases call with
  | fork proc1 proc2 pid =>
      obtain ⟨hempty, p, rfl, -⟩ := doFork_spec hstep
      -- A child gets a slot that is not in use.
      have hne : ppid ≠ proc2 := by
        rintro rfl
        exact hinUse hempty
      rw [setProc_proc_of_ne p hne]
      exact ⟨rfl, hinUse, fun _ => rfl⟩
  | setsched caller x =>
      obtain ⟨-, -, hproc⟩ := setsched_proc hstep
      rw [hproc]
      exact ⟨rfl, hinUse, fun hquiet => hquiet.elim⟩
  | chgroup caller =>
      -- `change_group` writes the group of its caller only.
      have hne : ppid ≠ caller := Ne.symm hother
      rw [step, doChgroup, changeGroup] at hstep
      split at hstep
      · obtain rfl := Option.some.inj hstep
        rw [setProc_proc_of_ne _ hne]
        exact ⟨rfl, hinUse, fun _ => rfl⟩
      · obtain rfl := Option.some.inj hstep
        rw [setProc_proc_of_ne _ hne]
        exact ⟨rfl, hinUse, fun _ => rfl⟩
  | sched =>
      have hsame := sched_sameGroups hstep
      rw [hsame.group, hsame.priority]
      exact ⟨rfl, hinUse, fun _ => hsame.procTime⟩

end

end Kernel

/-! ### The system calls -/

/-- What `get_prop` returns when `PROC_TIME` holds `x` for the group A. -/
def propOf (x : Int) : Int := if x < 0 then -1 else x

section
variable {minix : Minix} {ppid : Int} {k : Kernel}

/-- `get_group` returns the group of the process that calls it, and changes nothing. -/
theorem getGroup_eq (htask : SystemTask minix) (hmm : MemoryManager minix) (ppid : Int)
    (m : Message) (k : Kernel) :
    TestGrupa.getGroup minix ppid m k = ((k.proc ppid).pGroup.value, k) := by
  obtain ⟨m', hcall⟩ := hmm.getGroup ppid m k
  rw [TestGrupa.getGroup, hcall, MmMain.getGroup, htask.getgroup]
  show replied ((k.proc ppid).pGroup.value, k) = _
  cases (k.proc ppid).pGroup with
  | groupA => rfl
  | groupB => rfl

/-- `get_prop` returns what `PROC_TIME` holds for the group A, whoever calls it. A negative
proportion looks like an error. -/
theorem getProp_eq (htask : SystemTask minix) (hmm : MemoryManager minix) (ppid : Int)
    (m : Message) (k : Kernel) :
    TestGrupa.getProp minix ppid m k = (propOf (k.procTime .groupA), k) := by
  obtain ⟨m', hcall⟩ := hmm.retProp ppid m k
  rw [TestGrupa.getProp, hcall, MmMain.retProp, htask.retprop]
  rfl

/-- `set_scheduler` is that of `zmiany_proc.c` for the process that calls it. -/
theorem setScheduler_eq (htask : SystemTask minix) (hmm : MemoryManager minix) (ppid : Int)
    (m : Message) (k : Kernel) (x : Int) :
    TestGrupa.setScheduler minix ppid m k x = replied (k.setScheduler ppid x) := by
  obtain ⟨m', hcall⟩ := hmm.setScheduler ppid { m with m1i1 := x } k
  rw [TestGrupa.setScheduler, hcall, MmMain.setScheduler, htask.setsched]
  rfl

/-- It returns 0 for a process of the group A, and it sets what `get_prop` returns. -/
theorem setScheduler_groupA (htask : SystemTask minix) (hmm : MemoryManager minix)
    (hgroup : (k.proc ppid).pGroup = .groupA) (m : Message) (x : Int) :
    ∃ k', TestGrupa.setScheduler minix ppid m k x = (0, k') ∧ k'.proc = k.proc ∧
      k'.procTime .groupA = x := by
  rw [setScheduler_eq htask hmm, Kernel.setScheduler, hgroup]
  exact ⟨_, rfl, rfl, rfl⟩

/-- For a process of the group B it returns -1 and does nothing. -/
theorem setScheduler_groupB (htask : SystemTask minix) (hmm : MemoryManager minix)
    (hgroup : (k.proc ppid).pGroup = .groupB) (m : Message) (x : Int) :
    TestGrupa.setScheduler minix ppid m k x = (-1, k) := by
  rw [setScheduler_eq htask hmm, Kernel.setScheduler, hgroup]
  rfl

/-- `change_group` for a process of the group B. Its slot is in use as before. -/
theorem changeGroup_groupB (htask : SystemTask minix) (hmm : MemoryManager minix)
    (hgroup : (k.proc ppid).pGroup = .groupB) (m : Message) :
    ∃ k', TestGrupa.changeGroup minix ppid m k = (0, k') ∧ (k'.proc ppid).pGroup = .groupA ∧
      (k'.proc ppid).pPriority = (k.proc ppid).pPriority := by
  obtain ⟨m', hcall⟩ := hmm.changeGroup ppid m k
  rw [TestGrupa.changeGroup, hcall, MmMain.changeGroup, htask.chgroup]
  refine ⟨k.setProc ppid { k.proc ppid with pGroup := .groupA }, ?_, ?_, ?_⟩
  · show replied (k.changeGroup ppid) = _
    rw [Kernel.changeGroup, hgroup]
    rfl
  · rw [Kernel.setProc_proc_self]
  · rw [Kernel.setProc_proc_self]

end

/-! ### The output -/

/-- What is printed for the value of a group. -/
theorem printGrupa_value (group : Group) : printGrupa group.value = .grupa group := by
  cases group with
  | groupA => rfl
  | groupB => rfl

/-- What `test_grupa` prints up to the line that says that the proportions are set. -/
def setLines (start : Group) (p : Int) : List Printed :=
  match start with
  | .groupA => [.grupa .groupA, printProporcje p, .zmienione]
  | .groupB =>
      [.grupa .groupB, printProporcje p, .zmieniamGrupe, .grupa .groupA, .zmienione]

/-- Where `test_grupa` is, when it started in the group `start`. Without a call of `set_scheduler`
by another process `quiet` holds. -/
def Follows (start : Group) (quiet : Prop) (ppid ticks : Int) (w : World) : Prop :=
  match w.client.pc with
  | .getGroup => (w.kernel.proc ppid).pGroup = start ∧ w.client.printed = []
  | .getProp => (w.kernel.proc ppid).pGroup = start ∧ w.client.printed = [.grupa start]
  | .setScheduler => (w.kernel.proc ppid).pGroup = start ∧
      ∃ p, w.client.printed = [.grupa start, printProporcje p]
  | .changeGroup => start = .groupB ∧ (w.kernel.proc ppid).pGroup = .groupB ∧
      ∃ p, w.client.printed = [.grupa .groupB, printProporcje p, .zmieniamGrupe]
  | .getGroupAgain => start = .groupB ∧ (w.kernel.proc ppid).pGroup = .groupA ∧
      ∃ p, w.client.printed = [.grupa .groupB, printProporcje p, .zmieniamGrupe]
  | .setSchedulerAgain => start = .groupB ∧ (w.kernel.proc ppid).pGroup = .groupA ∧
      ∃ p, w.client.printed
        = [.grupa .groupB, printProporcje p, .zmieniamGrupe, .grupa .groupA]
  | .getPropAgain => (w.kernel.proc ppid).pGroup = .groupA ∧
      (quiet → w.kernel.procTime .groupA = ticks) ∧ ∃ p, w.client.printed = setLines start p
  | .returned => (w.kernel.proc ppid).pGroup = .groupA ∧
      (quiet → w.kernel.procTime .groupA = ticks) ∧
      ∃ p q, w.client.printed = setLines start p ++ [printProporcje q] ∧
        (quiet → q = propOf ticks)

section
variable {minix : Minix} {m : Message} {start : Group} {quiet : Prop} {ppid ticks : Int}
  {w w' : World} {event : Event} {events : List Event}

/-- The slot of the process is in use, and `test_grupa` is somewhere in its output. -/
structure Tested (start : Group) (quiet : Prop) (ppid ticks : Int) (w : World) : Prop where
  inUse : (w.kernel.proc ppid).pPriority ≠ .none
  follows : Follows start quiet ppid ticks w

/-- The steps that are left. -/
def Pc.left : Pc → Nat
  | .getGroup => 7
  | .getProp => 6
  | .setScheduler => 5
  | .changeGroup => 4
  | .getGroupAgain => 3
  | .setSchedulerAgain => 2
  | .getPropAgain => 1
  | .returned => 0

/-- A call that something else makes. -/
theorem Tested.other (h : Tested start quiet ppid ticks w) {call : Kernel.Call}
    (hother : Kernel.OfOther ppid call) (hquiet : quiet → Kernel.Quiet call)
    (hstep : w.step minix m ppid ticks (.other call) = some w') :
    Tested start quiet ppid ticks w' ∧ w'.client = w.client := by
  rw [World.step] at hstep
  cases hcall : w.kernel.step call with
  | none =>
      rw [hcall] at hstep
      cases hstep
  | some kernel =>
      rw [hcall] at hstep
      obtain rfl := Option.some.inj hstep
      obtain ⟨hgroup, hinUse, htime⟩ := Kernel.step_other h.inUse hother hcall
      refine ⟨⟨hinUse, ?_⟩, rfl⟩
      have hfollows := h.follows
      unfold Follows at hfollows ⊢
      simp only [hgroup]
      have hkept : quiet → w.kernel.procTime .groupA = ticks →
          kernel.procTime .groupA = ticks := by
        intro hq hset
        rw [htime (hquiet hq)]
        exact hset
      -- The place in the output is the same, and the proportions are, when they count.
      cases hpc : w.client.pc with
      | getPropAgain =>
          simp only [hpc] at hfollows ⊢
          exact ⟨hfollows.1, fun hq => hkept hq (hfollows.2.1 hq), hfollows.2.2⟩
      | returned =>
          simp only [hpc] at hfollows ⊢
          exact ⟨hfollows.1, fun hq => hkept hq (hfollows.2.1 hq), hfollows.2.2⟩
      | _ =>
          simp only [hpc] at hfollows ⊢
          exact hfollows

/-- A system call of `test_grupa`. There is one step less to do. -/
theorem Tested.client (h : Tested start quiet ppid ticks w) (htask : SystemTask minix)
    (hmm : MemoryManager minix) (m : Message) :
    ∃ k' c', w.client.step minix m ppid ticks w.kernel = (k', c') ∧
      Tested start quiet ppid ticks ⟨k', c'⟩ ∧ c'.pc.left ≤ w.client.pc.left - 1 := by
  have hinUse := h.inUse
  have hfollows := h.follows
  unfold Follows at hfollows
  cases hpc : w.client.pc with
  | getGroup =>
      simp only [hpc] at hfollows
      obtain ⟨hgroup, hprinted⟩ := hfollows
      refine ⟨w.kernel, ⟨.getProp, [.grupa start]⟩, ?_, ⟨hinUse, hgroup, rfl⟩, le_refl _⟩
      simp only [Client.step, hpc, getGroup_eq htask hmm, hgroup, printGrupa_value, hprinted]
      rfl
  | getProp =>
      simp only [hpc] at hfollows
      obtain ⟨hgroup, hprinted⟩ := hfollows
      refine ⟨w.kernel, ⟨.setScheduler,
        [.grupa start, printProporcje (propOf (w.kernel.procTime .groupA))]⟩, ?_,
        ⟨hinUse, hgroup, _, rfl⟩, le_refl _⟩
      simp only [Client.step, hpc, getProp_eq htask hmm, hprinted]
      rfl
  | setScheduler =>
      simp only [hpc] at hfollows
      obtain ⟨hgroup, p, hprinted⟩ := hfollows
      cases start with
      | groupA =>
          obtain ⟨k', hcall, hproc, htime⟩ := setScheduler_groupA htask hmm hgroup m ticks
          -- The call is accepted, and `test_grupa` goes on behind the branch.
          refine ⟨k', ⟨.getPropAgain, setLines .groupA p⟩, ?_, ⟨?_, ?_, fun _ => htime, p, rfl⟩,
            ?_⟩
          · simp only [Client.step, hpc, hcall, hprinted]
            rfl
          · rw [hproc]
            exact hinUse
          · rw [hproc]
            exact hgroup
          · show 1 ≤ 4
            decide
      | groupB =>
          -- The call is refused, and nothing has changed.
          have hcall := setScheduler_groupB htask hmm hgroup m ticks
          refine ⟨w.kernel, ⟨.changeGroup, [.grupa .groupB, printProporcje p, .zmieniamGrupe]⟩, ?_,
            ⟨hinUse, rfl, hgroup, p, rfl⟩, le_refl _⟩
          simp only [Client.step, hpc, hcall, hprinted]
          rfl
  | changeGroup =>
      simp only [hpc] at hfollows
      obtain ⟨hstart, hgroup, p, hprinted⟩ := hfollows
      obtain ⟨k', hcall, hgroup', hpriority⟩ := changeGroup_groupB htask hmm hgroup m
      refine ⟨k', ⟨.getGroupAgain, w.client.printed⟩, ?_, ⟨?_, hstart, hgroup', p, hprinted⟩,
        le_refl _⟩
      · simp only [Client.step, hpc, hcall]
      · rw [hpriority]
        exact hinUse
  | getGroupAgain =>
      simp only [hpc] at hfollows
      obtain ⟨hstart, hgroup, p, hprinted⟩ := hfollows
      refine ⟨w.kernel, ⟨.setSchedulerAgain,
        [.grupa .groupB, printProporcje p, .zmieniamGrupe, .grupa .groupA]⟩, ?_,
        ⟨hinUse, hstart, hgroup, p, rfl⟩, le_refl _⟩
      simp only [Client.step, hpc, getGroup_eq htask hmm, hgroup, printGrupa_value, hprinted]
      rfl
  | setSchedulerAgain =>
      simp only [hpc] at hfollows
      obtain ⟨rfl, hgroup, p, hprinted⟩ := hfollows
      obtain ⟨k', hcall, hproc, htime⟩ := setScheduler_groupA htask hmm hgroup m ticks
      refine ⟨k', ⟨.getPropAgain, setLines .groupB p⟩, ?_, ⟨?_, ?_, fun _ => htime, p, rfl⟩,
        le_refl _⟩
      · simp only [Client.step, hpc, hcall, hprinted]
        rfl
      · rw [hproc]
        exact hinUse
      · rw [hproc]
        exact hgroup
  | getPropAgain =>
      simp only [hpc] at hfollows
      obtain ⟨hgroup, htime, p, hprinted⟩ := hfollows
      refine ⟨w.kernel, ⟨.returned,
        setLines start p ++ [printProporcje (propOf (w.kernel.procTime .groupA))]⟩, ?_,
        ⟨hinUse, hgroup, htime, p, _, rfl, fun hq => ?_⟩, le_refl _⟩
      · simp only [Client.step, hpc, getProp_eq htask hmm, hprinted]
      · rw [htime hq]
  | returned =>
      refine ⟨w.kernel, w.client, ?_, ⟨hinUse, h.follows⟩, ?_⟩
      · simp only [Client.step, hpc]
      · rw [hpc]
        exact le_refl _

/-- Calls that are not those of `test_grupa`. -/
def Allowed (quiet : Prop) (ppid : Int) : Event → Prop
  | .client => True
  | .other call => Kernel.OfOther ppid call ∧ (quiet → Kernel.Quiet call)

/-- Every event keeps `test_grupa` in its output. -/
theorem Tested.step (h : Tested start quiet ppid ticks w) (htask : SystemTask minix)
    (hmm : MemoryManager minix) (hallowed : Allowed quiet ppid event)
    (hstep : w.step minix m ppid ticks event = some w') : Tested start quiet ppid ticks w' ∧
      w'.client.pc.left ≤ w.client.pc.left - if event = .client then 1 else 0 := by
  cases event with
  | client =>
      obtain ⟨k', c', hclient, htested, hleft⟩ := h.client htask hmm m
      rw [World.step, hclient] at hstep
      obtain rfl := Option.some.inj hstep
      exact ⟨htested, hleft⟩
  | other call =>
      obtain ⟨htested, hclient⟩ := h.other hallowed.1 hallowed.2 hstep
      rw [hclient]
      exact ⟨htested, le_refl _⟩

/-- Each event keeps what is known about `test_grupa`, and each of its own steps brings it nearer to
its end. -/
theorem Tested.run (h : Tested start quiet ppid ticks w) (htask : SystemTask minix)
    (hmm : MemoryManager minix)
    (hallowed : ∀ event ∈ events, Allowed quiet ppid event)
    (hrun : w.run minix m ppid ticks events = some w') : Tested start quiet ppid ticks w' ∧
      w'.client.pc.left ≤ w.client.pc.left - events.count .client := by
  induction events generalizing w with
  | nil =>
      obtain rfl := Option.some.inj hrun
      exact ⟨h, le_refl _⟩
  | cons event events ih =>
      obtain ⟨hevent, hevents⟩ := List.forall_mem_cons.mp hallowed
      rw [World.run, Run.schedule] at hrun
      cases hstep : w.step minix m ppid ticks event with
      | none =>
          rw [hstep] at hrun
          cases hrun
      | some mid =>
          rw [hstep] at hrun
          obtain ⟨hmid, hleft⟩ := h.step htask hmm hevent hstep
          obtain ⟨htested, hleft'⟩ := ih hmid hevents hrun
          refine ⟨htested, ?_⟩
          by_cases hclient : event = .client
          · subst hclient
            -- Only an event of `test_grupa` counts.
            rw [if_pos rfl] at hleft
            rw [List.count_cons_self]
            omega
          · rw [if_neg hclient] at hleft
            rw [List.count_cons_of_ne hclient]
            omega

/-- What has been printed is the front of one of the two outputs. -/
theorem Follows.front (h : Follows start quiet ppid ticks w) :
    ∃ p q, w.client.printed <+: setLines start p ++ [printProporcje q] := by
  unfold Follows at h
  cases hpc : w.client.pc with
  | getGroup =>
      simp only [hpc] at h
      rw [h.2]
      exact ⟨0, 0, List.nil_prefix⟩
  | getProp =>
      simp only [hpc] at h
      rw [h.2]
      refine ⟨0, 0, ?_⟩
      cases start with
      | groupA => exact ⟨_, rfl⟩
      | groupB => exact ⟨_, rfl⟩
  | setScheduler =>
      simp only [hpc] at h
      obtain ⟨-, p, hprinted⟩ := h
      rw [hprinted]
      refine ⟨p, 0, ?_⟩
      cases start with
      | groupA => exact ⟨_, rfl⟩
      | groupB => exact ⟨_, rfl⟩
  | changeGroup =>
      simp only [hpc] at h
      obtain ⟨rfl, -, p, hprinted⟩ := h
      rw [hprinted]
      exact ⟨p, 0, _, rfl⟩
  | getGroupAgain =>
      simp only [hpc] at h
      obtain ⟨rfl, -, p, hprinted⟩ := h
      rw [hprinted]
      exact ⟨p, 0, _, rfl⟩
  | setSchedulerAgain =>
      simp only [hpc] at h
      obtain ⟨rfl, -, p, hprinted⟩ := h
      rw [hprinted]
      exact ⟨p, 0, _, rfl⟩
  | getPropAgain =>
      simp only [hpc] at h
      obtain ⟨-, -, p, hprinted⟩ := h
      rw [hprinted]
      exact ⟨p, 0, List.prefix_append _ _⟩
  | returned =>
      simp only [hpc] at h
      obtain ⟨-, -, p, q, hprinted, -⟩ := h
      rw [hprinted]
      exact ⟨p, q, List.prefix_rfl⟩

/-- `BLAD` is in neither of them. -/
theorem blad_notMem (start : Group) (p q : Int) :
    Printed.blad ∉ setLines start p ++ [printProporcje q] := by
  cases start with
  | groupA => simp [setLines, printProporcje]
  | groupB => simp [setLines, printProporcje]

end

/-- `test_grupa` with a proportion, and anything that other processes and the clock do between its
system calls. Of MINIX between the files it is assumed that the system task and the memory manager
call the functions that the numbers stand for. `test_grupa` prints one of two outputs: that of a
process of the group A, and that of one that is refused once and changes to the group A. After seven
of its steps it has returned, and its process is in the group A. When no other process sets the
proportions, they are as it asked. -/
theorem testGrupa_run (minix : Minix) (htask : SystemTask minix) (hmm : MemoryManager minix)
    (m : Message) (k : Kernel) (ppid ticks : Int) (argc : Nat) (hargc : argc ≠ 1)
    (hinUse : (k.proc ppid).pPriority ≠ .none) (events : List Event)
    (hother : ∀ call, .other call ∈ events → Kernel.OfOther ppid call) (w : World)
    (hrun : World.run minix m ppid ticks ⟨k, Client.main argc⟩ events = some w) :
    (∃ p q, w.client.printed <+: setLines (k.proc ppid).pGroup p ++ [printProporcje q]) ∧
    Printed.blad ∉ w.client.printed ∧
    (7 ≤ events.count .client → w.client.pc = .returned) ∧
    (w.client.pc = .returned → (w.kernel.proc ppid).pGroup = .groupA ∧
      ∃ p q, w.client.printed = setLines (k.proc ppid).pGroup p ++ [printProporcje q] ∧
        ((∀ call, .other call ∈ events → Kernel.Quiet call) →
          w.kernel.procTime .groupA = ticks ∧ q = propOf ticks)) := by
  have hstart : Tested (k.proc ppid).pGroup (∀ call, .other call ∈ events → Kernel.Quiet call) ppid
      ticks ⟨k, Client.main argc⟩ := by
    rw [Client.main, if_neg hargc]
    exact ⟨hinUse, rfl, rfl⟩
  have hallowed : ∀ event ∈ events,
      Allowed (∀ call, .other call ∈ events → Kernel.Quiet call) ppid event := by
    intro event hevent
    cases event with
    | client => trivial
    | other call => exact ⟨hother call hevent, fun hquiet => hquiet call hevent⟩
  obtain ⟨htested, hleft⟩ := hstart.run htask hmm hallowed hrun
  obtain ⟨p, q, hfront⟩ := htested.follows.front
  refine ⟨⟨p, q, hfront⟩, fun hblad => blad_notMem _ p q (hfront.subset hblad), ?_, ?_⟩
  · intro hcount
    have hfirst : (Client.main argc).pc.left = 7 := by
      rw [Client.main, if_neg hargc]
      rfl
    have hzero : w.client.pc.left = 0 := by
      simp only [hfirst] at hleft
      omega
    cases hpc : w.client.pc with
    | returned => rfl
    | _ =>
        rw [hpc] at hzero
        cases hzero
  · intro hpc
    have hfollows := htested.follows
    unfold Follows at hfollows
    simp only [hpc] at hfollows
    obtain ⟨hgroup, htime, p, q, hprinted, hq⟩ := hfollows
    exact ⟨hgroup, p, q, hprinted, fun hquiet => ⟨htime hquiet, hq hquiet⟩⟩

/-- The system task of a small MINIX, which has no other functions. -/
def tinyTaskcall (callnr : SysCall) (m : Message) (k : Kernel) : Int × Kernel :=
  match callnr with
  | .getgroup => (k.doGetgroup m.m1i1, k)
  | .setsched => k.doSetsched m.m1i1 m.m2l2
  | .chgroup => k.doChgroup m.m1i1
  | .getutime => (k.doGetutime m.m1i1, k)
  | .retprop => (k.doRetprop m.m1i1, k)

/-- A small MINIX. The process 0 is its memory manager, with these four functions in its table. -/
def tinyMinix : Minix where
  taskcall := tinyTaskcall
  syscall caller who callnr m k :=
    let mmIn := { m with mSource := caller }
    if who = 0 ∧ callnr = 78 then
      replied (MmMain.getGroup tinyTaskcall ⟨0, 0, 0⟩ mmIn k)
    else if who = 0 ∧ callnr = 79 then
      replied (MmMain.setScheduler tinyTaskcall ⟨0, 0, 0⟩ mmIn k)
    else if who = 0 ∧ callnr = 80 then
      replied (MmMain.changeGroup tinyTaskcall ⟨0, 0, 0⟩ mmIn k)
    else if who = 0 ∧ callnr = 82 then
      replied (MmMain.retProp tinyTaskcall ⟨0, 0, 0⟩ mmIn k)
    else
      (-1, k)

/-- The system task of this MINIX calls the function of the number. -/
theorem tinyMinix_task : SystemTask tinyMinix :=
  ⟨fun _ _ => rfl, fun _ _ => rfl, fun _ _ => rfl, fun _ _ => rfl, fun _ _ => rfl⟩

/-- So does its memory manager, and it replies with the value. -/
theorem tinyMinix_mm : MemoryManager tinyMinix :=
  ⟨fun _ _ _ => ⟨⟨0, 0, 0⟩, rfl⟩, fun _ _ _ => ⟨⟨0, 0, 0⟩, rfl⟩, fun _ _ _ => ⟨⟨0, 0, 0⟩, rfl⟩,
    fun _ _ _ => ⟨⟨0, 0, 0⟩, rfl⟩⟩

/-- The process 1 is of the group B, and the process 0 sets the proportions in between. -/
def tinyEvents : List Event :=
  [.client, .other .sched, .client, .client, .other (.setsched 0 20), .client, .client, .client,
    .client]

/-- The end of this run. -/
def tinyTested : World :=
  match World.run tinyMinix ⟨7, 7, 7⟩ 1 60 ⟨Kernel.tinyKernel, Client.main 2⟩ tinyEvents with
  | none => ⟨Kernel.tinyKernel, Client.main 2⟩
  | some w => w

/-- The events are a run up to this state. -/
theorem tinyTested_run :
    World.run tinyMinix ⟨7, 7, 7⟩ 1 60 ⟨Kernel.tinyKernel, Client.main 2⟩ tinyEvents
      = some tinyTested := rfl

/-- `test_grupa` has returned in this run, and it printed no error. -/
theorem testGrupa_run_tiny :
    tinyTested.client.pc = .returned ∧ Printed.blad ∉ tinyTested.client.printed := by
  have hother : ∀ call, .other call ∈ tinyEvents → Kernel.OfOther 1 call := by
    simp [tinyEvents, Kernel.OfOther]
  obtain ⟨-, hblad, hreturned, -⟩ := testGrupa_run tinyMinix tinyMinix_task tinyMinix_mm ⟨7, 7, 7⟩
    Kernel.tinyKernel 1 60 2 (by decide) (by decide) tinyEvents hother tinyTested tinyTested_run
  exact ⟨hreturned (by decide), hblad⟩

end Soi.Szeregowanie
