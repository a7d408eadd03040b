import Mathlib.Logic.Function.Basic

/-!
# `Soi.Szeregowanie.Kernel`: the two groups of user processes

`sched` of `proc.c`, the functions that the system task calls, and the calls themselves. A
`struct proc *` is the number of the slot, and `NIL_PROC` is `none`. Of the queues there is only
`USER_Q`. The integers are those of `Int`: a value that stays in 1..99 does not overflow.

`isuserp` and `isemptyp` of the kernel look at `p_priority`. A call that fails an assertion, or that
dereferences `NIL_PROC`, is `none`. `pick_proc` reads the queue and writes nothing of this.
-/

set_option autoImplicit false

namespace Soi.Szeregowanie

/-- `p_group`. -/
inductive Group where
  | groupA
  | groupB
  deriving DecidableEq, Repr

/-- `p_priority`: what the slot is used for. -/
inductive Priority where
  | none
  | task
  | server
  | user
  | idle
  deriving DecidableEq, Repr

/-- The bits of `p_flags` that `do_fork` writes, and the others. -/
inductive Flag where
  | noMap
  | pending
  | sigPending
  | pStop
  | other (bit : Nat)
  deriving DecidableEq, Repr

/-- `struct proc`, as far as these functions write it. -/
structure Proc where
  pNr : Int
  pPriority : Priority
  pFlags : Flag → Bool
  pLdtSel : Int
  pPending : List Int
  pPendcount : Int
  pPid : Int
  retreg : Int
  userTime : Int
  sysTime : Int
  childUtime : Int
  childStime : Int
  pGroup : Group
  /-- How many calls of `sched` the process has left before it is put at the end of the queue. -/
  pTicks : Int
  /-- 1 until the process is at the head in a call of `sched`. -/
  pFirst : Int
  pNextready : Option Int

/-- The process table, `rdy_head[USER_Q]`, `rdy_tail[USER_Q]`, and `PROC_TIME` with its entry 0 for
the group A and its entry 1 for the group B. -/
structure Kernel where
  proc : Int → Proc
  rdyHead : Option Int
  rdyTail : Option Int
  procTime : Group → Int

namespace Kernel

/-- `*proc_addr(i) = p`. -/
def setProc (k : Kernel) (i : Int) (p : Proc) : Kernel :=
  { k with proc := Function.update k.proc i p }

/-- `rp->p_nextready = next`. -/
def setNextready (k : Kernel) (rp : Int) (next : Option Int) : Kernel :=
  k.setProc rp { k.proc rp with pNextready := next }

/-- The four lines of `sched` that put the head of the queue at its end. -/
def toTail (k : Kernel) (head : Int) : Option Kernel :=
  match k.rdyTail with
  | none => none
  | some tail =>
      let k := k.setNextready tail (some head)
      let k := { k with rdyTail := some head }
      let k := { k with rdyHead := (k.proc head).pNextready }
      some (k.setNextready head none)

/-- `sched`. -/
def sched (k : Kernel) : Option Kernel :=
  match k.rdyHead with
  | none => some k
  | some head =>
      let p := k.proc head
      if p.pFirst = 1 then
        (k.setProc head { p with pFirst := 0 }).toTail head
      else
        let p := { p with pTicks := p.pTicks - 1 }
        if p.pTicks = 0 ∨ p.pTicks = 0 then
          (k.setProc head { p with pTicks := k.procTime p.pGroup }).toTail head
        else
          some (k.setProc head p)

/-- `set_scheduler`, with its return value. -/
def setScheduler (k : Kernel) (rp x : Int) : Int × Kernel :=
  match (k.proc rp).pGroup with
  | .groupA =>
      (0, { k with procTime := fun
        | .groupA => x
        | .groupB => 100 - x })
  | .groupB => (-1, k)

/-- `change_group`, with its return value. -/
def changeGroup (k : Kernel) (rp : Int) : Int × Kernel :=
  match (k.proc rp).pGroup with
  | .groupA => (0, k.setProc rp { k.proc rp with pGroup := .groupB })
  | .groupB => (0, k.setProc rp { k.proc rp with pGroup := .groupA })

/-- `do_fork`: the process `proc1` has forked, and the child is `proc2`. -/
def doFork (k : Kernel) (proc1 proc2 pid : Int) : Option Kernel :=
  if (k.proc proc1).pPriority = .user ∧ (k.proc proc2).pPriority = .none then
    let group := if pid.tmod 2 = 0 then .groupA else .groupB
    some (k.setProc proc2
      { k.proc proc1 with
          pLdtSel := (k.proc proc2).pLdtSel
          pNr := proc2
          pFlags := fun
            | .noMap => true
            | .pending => false
            | .sigPending => false
            | .pStop => false
            | .other bit => (k.proc proc1).pFlags (.other bit)
          pPending := []
          pPendcount := 0
          pPid := pid
          retreg := 0
          userTime := 0
          sysTime := 0
          childUtime := 0
          childStime := 0
          pGroup := group
          pTicks := k.procTime group
          pFirst := 1 })
  else
    none

/-- `do_setsched`. -/
def doSetsched (k : Kernel) (caller x : Int) : Int × Kernel := k.setScheduler caller x

/-- `do_chgroup`. -/
def doChgroup (k : Kernel) (caller : Int) : Int × Kernel := k.changeGroup caller

/-- What the system task and the clock call. -/
inductive Call where
  | fork (proc1 proc2 pid : Int)
  | setsched (caller x : Int)
  | chgroup (caller : Int)
  | sched
  deriving DecidableEq, Repr

def step (k : Kernel) : Call → Option Kernel
  | .fork proc1 proc2 pid => k.doFork proc1 proc2 pid
  | .setsched caller x => some (k.doSetsched caller x).2
  | .chgroup caller => some (k.doChgroup caller).2
  | .sched => k.sched

/-- One call after the other. -/
def run (k : Kernel) : List Call → Option Kernel
  | [] => some k
  | call :: calls =>
      match k.step call with
      | none => none
      | some k => k.run calls

end Kernel

end Soi.Szeregowanie
