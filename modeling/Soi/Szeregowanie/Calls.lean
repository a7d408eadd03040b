import Soi.Lib.Run
import Soi.Szeregowanie.Kernel

/-!
# `Soi.Szeregowanie.Calls`: the system calls of a process, and `test_grupa`

A system call of `test_grupa.c` is `_syscall` of the library, which sends a message to the memory
manager. There the function of `mm_main.c` for the number of the call sends a message to the system
task with `_taskcall`, and the system task calls its function of `zmiany_system.c`. The code in
between is that of MINIX, which is not in the repository. So `Minix` is a parameter, and
`SystemTask` and `MemoryManager` state what the files here rely on: which function a number leads
to, that its value comes back, and that `_syscall` returns -1 for a negative one. `GROUP_A` is 0
and `GROUP_B` is 1.

`Client` is `main` of `test_grupa.c` between two of its system calls. Other processes make their
calls in the meantime, and the clock calls `sched`.
-/

set_option autoImplicit false

namespace Soi.Szeregowanie

/-- The value of `GROUP_A` and `GROUP_B`. -/
def Group.value : Group → Int
  | .groupA => 0
  | .groupB => 1

namespace Kernel

/-- `ret_gr`. -/
def retGr (k : Kernel) (rp : Int) : Int := (k.proc rp).pGroup.value

/-- `ret_utime`. -/
def retUtime (k : Kernel) (rp : Int) : Int := (k.proc rp).userTime

/-- `ret_prop`. It does not read its argument. -/
def retProp (k : Kernel) (_rp : Int) : Int := k.procTime .groupA

/-- `do_getgroup`. -/
def doGetgroup (k : Kernel) (caller : Int) : Int := k.retGr caller

/-- `do_getutime`. -/
def doGetutime (k : Kernel) (caller : Int) : Int := k.retUtime caller

/-- `do_retprop`. -/
def doRetprop (k : Kernel) (caller : Int) : Int := k.retProp caller

end Kernel

/-! ### Messages -/

/-- `message`: who has sent it, and the fields that these calls use. -/
structure Message where
  mSource : Int
  m1i1 : Int
  m2l2 : Int
  deriving DecidableEq, Repr

/-- The calls of the system task: `SYS_GETGROUP`, `SYS_SETSCHED`, `SYS_CHGROUP`, `SYS_GETUTIME` and
`SYS_RETPROP`. -/
inductive SysCall where
  | getgroup
  | setsched
  | chgroup
  | getutime
  | retprop
  deriving DecidableEq, Repr

/-- The two ways of a message through MINIX, with the result of the call, and the kernel after it.
-/
structure Minix where
  /-- `_taskcall(SYSTASK, callnr, &m)`. -/
  taskcall : (callnr : SysCall) → (m : Message) → Kernel → Int × Kernel
  /-- `_syscall(who, callnr, &m)` of the process `caller`. -/
  syscall : (caller who callnr : Int) → (m : Message) → Kernel → Int × Kernel

/-! ### `mm_main.c` -/

section
variable (taskcall : SysCall → Message → Kernel → Int × Kernel)

/-- `get_group`, where `m` is what is in the local message at first. -/
def MmMain.getGroup (m mmIn : Message) (k : Kernel) : Int × Kernel :=
  taskcall .getgroup { m with m1i1 := mmIn.mSource } k

/-- `set_scheduler`. -/
def MmMain.setScheduler (m mmIn : Message) (k : Kernel) : Int × Kernel :=
  taskcall .setsched { m with m1i1 := mmIn.mSource, m2l2 := mmIn.m1i1 } k

/-- `change_group`. -/
def MmMain.changeGroup (m mmIn : Message) (k : Kernel) : Int × Kernel :=
  taskcall .chgroup { m with m1i1 := mmIn.mSource } k

/-- `get_utime`. -/
def MmMain.getUtime (m mmIn : Message) (k : Kernel) : Int × Kernel :=
  taskcall .getutime { m with m1i1 := mmIn.mSource } k

/-- `ret_prop`. -/
def MmMain.retProp (m mmIn : Message) (k : Kernel) : Int × Kernel :=
  taskcall .retprop { m with m1i1 := mmIn.mSource } k

end

/-! ### What the files rely on -/

/-- The system task calls the function that a number stands for with the message, and its value
comes back. -/
structure SystemTask (minix : Minix) : Prop where
  getgroup : ∀ m k, minix.taskcall .getgroup m k = (k.doGetgroup m.m1i1, k)
  setsched : ∀ m k, minix.taskcall .setsched m k = k.doSetsched m.m1i1 m.m2l2
  chgroup : ∀ m k, minix.taskcall .chgroup m k = k.doChgroup m.m1i1
  getutime : ∀ m k, minix.taskcall .getutime m k = (k.doGetutime m.m1i1, k)
  retprop : ∀ m k, minix.taskcall .retprop m k = (k.doRetprop m.m1i1, k)

/-- What `_syscall` makes of the value of a function of the memory manager. -/
def replied (result : Int × Kernel) : Int × Kernel :=
  (if result.1 < 0 then -1 else result.1, result.2)

/-- The memory manager is the process 0. It puts the message into `mm_in`, with its sender, and
calls the function for the number, in whose local message there is something. -/
structure MemoryManager (minix : Minix) : Prop where
  getGroup : ∀ caller m k, ∃ m', minix.syscall caller 0 78 m k
    = replied (MmMain.getGroup minix.taskcall m' { m with mSource := caller } k)
  setScheduler : ∀ caller m k, ∃ m', minix.syscall caller 0 79 m k
    = replied (MmMain.setScheduler minix.taskcall m' { m with mSource := caller } k)
  changeGroup : ∀ caller m k, ∃ m', minix.syscall caller 0 80 m k
    = replied (MmMain.changeGroup minix.taskcall m' { m with mSource := caller } k)
  retProp : ∀ caller m k, ∃ m', minix.syscall caller 0 82 m k
    = replied (MmMain.retProp minix.taskcall m' { m with mSource := caller } k)

/-! ### `test_grupa` -/

namespace TestGrupa

variable (minix : Minix) (ppid : Int) (m : Message) (k : Kernel)

/-- `change_group`, called by the process `ppid`. The local message `m` is not written. -/
def changeGroup : Int × Kernel := minix.syscall ppid 0 80 m k

/-- `set_scheduler`. -/
def setScheduler (x : Int) : Int × Kernel := minix.syscall ppid 0 79 { m with m1i1 := x } k

/-- `get_group`. -/
def getGroup : Int × Kernel := minix.syscall ppid 0 78 m k

/-- `get_prop`. -/
def getProp : Int × Kernel := minix.syscall ppid 0 82 m k

end TestGrupa

/-- What `test_grupa` prints. -/
inductive Printed where
  | brakArgumentu
  | grupa (group : Group)
  | proporcje (a b : Int)
  | zmieniamGrupe
  | zmienione
  | blad
  deriving DecidableEq, Repr

/-- The next system call of `main`. -/
inductive Pc where
  | getGroup
  | getProp
  | setScheduler
  /-- The first `set_scheduler` has returned -1. -/
  | changeGroup
  | getGroupAgain
  | setSchedulerAgain
  | getPropAgain
  | returned
  deriving DecidableEq, Repr

/-- `main`, with what it has printed. -/
structure Client where
  pc : Pc
  printed : List Printed
  deriving DecidableEq, Repr

/-- `main` up to its first system call. -/
def Client.main (argc : Nat) : Client :=
  if argc = 1 then ⟨.returned, [.brakArgumentu]⟩ else ⟨.getGroup, []⟩

/-- The lines that print the group, or the proportions, from the result of a call. -/
def printGrupa (r : Int) : Printed := .grupa (if r = 0 then .groupA else .groupB)

def printProporcje (prop : Int) : Printed := .proporcje prop (100 - prop)

section
variable (minix : Minix) (m : Message) (ppid ticks : Int)

/-- The next system call of the process `ppid`, and `main` up to the one behind it. `ticks` is what
`atoi` returns, and `m` is what is in a local message at first. -/
def Client.step (k : Kernel) (c : Client) : Kernel × Client :=
  match c.pc with
  | .getGroup =>
      let (r, k) := TestGrupa.getGroup minix ppid m k
      (k, ⟨.getProp, c.printed ++ [printGrupa r]⟩)
  | .getProp =>
      let (prop, k) := TestGrupa.getProp minix ppid m k
      (k, ⟨.setScheduler, c.printed ++ [printProporcje prop]⟩)
  | .setScheduler =>
      let (ret, k) := TestGrupa.setScheduler minix ppid m k ticks
      if ret = -1 then
        (k, ⟨.changeGroup, c.printed ++ [.zmieniamGrupe]⟩)
      else
        (k, ⟨.getPropAgain, c.printed ++ [.zmienione]⟩)
  | .changeGroup =>
      let (_, k) := TestGrupa.changeGroup minix ppid m k
      (k, ⟨.getGroupAgain, c.printed⟩)
  | .getGroupAgain =>
      let (r, k) := TestGrupa.getGroup minix ppid m k
      (k, ⟨.setSchedulerAgain, c.printed ++ [printGrupa r]⟩)
  | .setSchedulerAgain =>
      let (ret, k) := TestGrupa.setScheduler minix ppid m k ticks
      (k, ⟨.getPropAgain, c.printed ++ [if ret = -1 then .blad else .zmienione]⟩)
  | .getPropAgain =>
      let (prop, k) := TestGrupa.getProp minix ppid m k
      (k, ⟨.returned, c.printed ++ [printProporcje prop]⟩)
  | .returned => (k, c)

end

/-- The kernel and `test_grupa`. -/
structure World where
  kernel : Kernel
  client : Client

/-- What happens next: a system call of `test_grupa`, or a call that something else makes. -/
inductive Event where
  | client
  | other (call : Kernel.Call)
  deriving DecidableEq, Repr

section
variable (minix : Minix) (m : Message) (ppid ticks : Int)

def World.step (w : World) : Event → Option World
  | .client =>
      let (kernel, client) := w.client.step minix m ppid ticks w.kernel
      some ⟨kernel, client⟩
  | .other call =>
      match w.kernel.step call with
      | none => none
      | some kernel => some ⟨kernel, w.client⟩

/-- The events one after the other. -/
def World.run (w : World) (events : List Event) : Option World :=
  Lib.Run.schedule (World.step minix m ppid ticks) w events

end

end Soi.Szeregowanie
