import Soi.Lib.Handoff
import Soi.Lib.Run
import Soi.Lib.Threads
import Soi.Monitory.Chat
import Soi.Proofs.Monitory.Buffer

/-!
# `Soi.Proofs.Monitory.Chat`: the monitor has one owner, in every run

`Turn` lists the steps of a thread, and `turn_of_next` shows that there are no others. `Inv` is
the invariant of the runs:

* `owner`: the monitor is free, or one thread is inside, or one unit of a condition is on its
  way to a thread that waits;
* `waiters`: the threads that wait for a condition are the ones that nobody has signalled, the
  ones that a unit is on its way to, and the ones that a thread is about to signal;
* `calm`, `handed` and `places`: the three facts of `Soi.Lib.Handoff`, one for each owner.

`Inv.pass` is the common part of all steps: the thread that moves is the owner or becomes the
owner, so that no other thread is inside. `Inv.take` and `Inv.release` are the two operations on
`s`, `Inv.passCond` is for steps that write a condition, and `turn_inv` has one case for each
step.
-/

set_option autoImplicit false

namespace Soi.Monitory

open Soi.Lib

/-! ### Places -/

/-- The thread is inside the monitor. -/
def Pc.inside : Pc → Bool
  | .idle => false
  | .test _ => true
  | .waitLeave _ => true
  | .waitP _ => false
  | .body _ => true
  | .signalV _ => true
  | .signalEnter _ => false
  | .leave _ => true

/-- The thread is inside `wait(c)`. -/
def Pc.waitsFor (c : Cond) : Pc → Bool
  | .waitLeave call => call.waitsOn == c
  | .waitP call => call.waitsOn == c
  | _ => false

/-- The thread is about to do `w.v()` on `c`. -/
def Pc.posts (c : Cond) : Pc → Bool
  | .signalV call => call.signals == c
  | _ => false

/-- The two conditions of a call are the one that it waits on and the one that it signals. -/
theorem Call.eq_or_eq (call : Call) (c : Cond) : c = call.waitsOn ∨ c = call.signals := by
  cases call <;> cases c <;> simp [Call.waitsOn, Call.signals]

/-- What a thread needs one of: a place in the list, or a message. -/
def room (capacity : Nat) (buffer : List Message) : Cond → Nat
  | .full => capacity - buffer.length
  | .empty => buffer.length

section
variable {capacity : Nat} {buffer : List Message} {call : Call}

/-- The test of a call holds when there is none of what it needs. -/
theorem mustWait_iff (hle : buffer.length ≤ capacity) :
    call.mustWait capacity buffer = true ↔ room capacity buffer call.waitsOn = 0 := by
  cases call with
  | sendMsg m =>
      simp only [Call.mustWait, Call.waitsOn, room, Buffer.getSize_eq, beq_iff_eq]
      omega
  | readMsg => simp [Call.mustWait, Call.waitsOn, room]

/-- A call signals when it has made the first unit. -/
theorem mustSignal_iff (hpos : 0 < capacity)
    (hle : buffer.length ≤ capacity) (hmade : room capacity buffer call.signals ≠ 0) :
    call.mustSignal capacity buffer = true ↔ room capacity buffer call.signals = 1 := by
  cases call with
  | sendMsg m => simp [Call.mustSignal, Call.signals, room]
  | readMsg =>
      simp only [Call.mustSignal, Call.signals, room, Buffer.getSize_eq, beq_iff_eq] at hmade ⊢
      omega

/-- A call uses one unit and makes one of the other kind. -/
theorem use_moved {t t' : Thread} {buffer' : List Message} (hle : buffer.length ≤ capacity)
    (hroom : room capacity buffer call.waitsOn ≠ 0)
    (huse : call.use t buffer = some (t', buffer')) :
    buffer'.length ≤ capacity ∧
      Moved (room capacity buffer) (room capacity buffer') call.waitsOn call.signals := by
  cases call with
  | sendMsg m =>
      simp only [Call.use, Option.some.injEq, Prod.mk.injEq] at huse
      obtain ⟨-, rfl⟩ := huse
      simp only [Call.waitsOn, room] at hroom
      -- A place less and a message more. There are no other conditions.
      refine ⟨?_, ?_, ?_, ?_⟩
      · rw [Buffer.length_send]
        omega
      · simp only [Call.waitsOn, room, Buffer.length_send]
        omega
      · simp only [Call.signals, room, Buffer.length_send]
      · intro e he he'
        exact absurd ((Call.sendMsg m).eq_or_eq e) (not_or.mpr ⟨he, he'⟩)
  | readMsg =>
      cases buffer with
      | nil => exact absurd rfl hroom
      | cons m rest =>
          simp only [Call.use, Buffer.read, Option.bind_eq_bind, Option.bind_some,
            Option.some.injEq, Prod.mk.injEq] at huse
          obtain ⟨-, rfl⟩ := huse
          rw [List.length_cons] at hle
          refine ⟨by omega, ?_, ?_, ?_⟩
          · simp only [Call.waitsOn, room, List.length_cons]
          · simp only [Call.signals, room, List.length_cons]
            omega
          · intro e he he'
            exact absurd (Call.readMsg.eq_or_eq e) (not_or.mpr ⟨he, he'⟩)

end

namespace Chat

variable {ι : Type*} [DecidableEq ι] {capacity : Nat} {chat chat' : Chat ι} {i : ι}

/-! ### The steps -/

/-- The step of a thread `i`, by its place. -/
inductive Turn (capacity : Nat) (chat : Chat ι) (i : ι) : Chat ι → Prop
  | enter {call : Call} {calls : List Call} (hpc : (chat.thread i).pc = .idle)
      (hcalls : (chat.thread i).calls = call :: calls) (hs : chat.s ≠ 0) :
      Turn capacity chat i
        { chat.setThread i { chat.thread i with pc := .test call, calls } with s := chat.s - 1 }
  | wait {call : Call} (hpc : (chat.thread i).pc = .test call)
      (hwait : call.mustWait capacity chat.buffer = true) :
      Turn capacity chat i ((chat.setCond call.waitsOn
        { chat.cond call.waitsOn with
          waitingCount := (chat.cond call.waitsOn).waitingCount + 1 }).setThread i
        { chat.thread i with pc := .waitLeave call })
  | pass {call : Call} (hpc : (chat.thread i).pc = .test call)
      (hpass : call.mustWait capacity chat.buffer = false) :
      Turn capacity chat i (chat.setThread i { chat.thread i with pc := .body call })
  | waitLeave {call : Call} (hpc : (chat.thread i).pc = .waitLeave call) :
      Turn capacity chat i
        { chat.setThread i { chat.thread i with pc := .waitP call } with s := chat.s + 1 }
  | waitP {call : Call} (hpc : (chat.thread i).pc = .waitP call)
      (hw : (chat.cond call.waitsOn).w ≠ 0) :
      Turn capacity chat i ((chat.setCond call.waitsOn
        { chat.cond call.waitsOn with w := (chat.cond call.waitsOn).w - 1 }).setThread i
        { chat.thread i with pc := .body call })
  | hand {call : Call} {t : Thread} {buffer : List Message} (hpc : (chat.thread i).pc = .body call)
      (huse : call.use (chat.thread i) chat.buffer = some (t, buffer))
      (hsignal : call.mustSignal capacity buffer = true)
      (hwaiting : (chat.cond call.signals).waitingCount ≠ 0) :
      Turn capacity chat i (({ chat with buffer }.setCond call.signals
        { chat.cond call.signals with
          waitingCount := (chat.cond call.signals).waitingCount - 1 }).setThread i
        { t with pc := .signalV call })
  | done {call : Call} {t : Thread} {buffer : List Message} (hpc : (chat.thread i).pc = .body call)
      (huse : call.use (chat.thread i) chat.buffer = some (t, buffer))
      (hnone : call.mustSignal capacity buffer = false ∨
        (chat.cond call.signals).waitingCount = 0) :
      Turn capacity chat i ({ chat with buffer }.setThread i { t with pc := .leave call })
  | signalV {call : Call} (hpc : (chat.thread i).pc = .signalV call) :
      Turn capacity chat i ((chat.setCond call.signals
        { chat.cond call.signals with w := (chat.cond call.signals).w + 1 }).setThread i
        { chat.thread i with pc := .signalEnter call })
  | signalEnter {call : Call} (hpc : (chat.thread i).pc = .signalEnter call) (hs : chat.s ≠ 0) :
      Turn capacity chat i
        { chat.setThread i { chat.thread i with pc := .leave call } with s := chat.s - 1 }
  | leave {call : Call} (hpc : (chat.thread i).pc = .leave call) :
      Turn capacity chat i
        { chat.setThread i { chat.thread i with pc := .idle } with s := chat.s + 1 }

/-- Each step of `next` is one of the steps in the list, with what the code has tested in front of
it. -/
theorem turn_of_next (h : chat.next capacity i = some chat') : Turn capacity chat i chat' := by
  rw [next] at h
  split at h
  · -- Outside: the thread starts its next call with `enter()`, or it has none.
    rename_i hpc
    split at h
    · cases h
    · rename_i hcalls
      split_ifs at h with hs
      exact Option.some.inj h ▸ .enter hpc hcalls hs
  · rename_i hpc
    split_ifs at h with hwait
    · exact Option.some.inj h ▸ .wait hpc hwait
    · exact Option.some.inj h ▸ .pass hpc (Bool.eq_false_iff.mpr hwait)
  · rename_i hpc
    exact Option.some.inj h ▸ .waitLeave hpc
  · rename_i hpc
    dsimp only at h
    split_ifs at h with hw
    exact Option.some.inj h ▸ .waitP hpc hw
  · -- The list is used, and then the test for `signal` comes.
    rename_i call hpc
    split at h
    · cases h
    · rename_i t buffer huse
      dsimp only at h
      split_ifs at h with hsignal
      · rw [Bool.and_eq_true, bne_iff_ne] at hsignal
        exact Option.some.inj h ▸ .hand hpc huse hsignal.1 hsignal.2
      · rw [Bool.and_eq_true, bne_iff_ne, not_and_or, not_not, Bool.not_eq_true] at hsignal
        exact Option.some.inj h ▸ .done hpc huse hsignal
  · rename_i hpc
    exact Option.some.inj h ▸ .signalV hpc
  · rename_i hpc
    split_ifs at h with hs
    exact Option.some.inj h ▸ .signalEnter hpc hs
  · rename_i hpc
    exact Option.some.inj h ▸ .leave hpc

/-! ### The invariant -/

/-- The threads that wait for a condition and that nobody has signalled yet. -/
def waiting (chat : Chat ι) (c : Cond) : Nat := (chat.cond c).waitingCount

/-- What the owner of the monitor knows, by its place. -/
def Knows (wait room : Cond → Nat) : Pc → Prop
  | .test _ => Calm wait room
  | .waitLeave _ => Calm wait room
  | .body call => Served wait room call.waitsOn
  | .signalV call => HandedTo wait room call.signals
  | .leave _ => Calm wait room
  | _ => True

/-- Nothing is asked of a thread that is outside the monitor. -/
theorem knows_of_outside {wait room : Cond → Nat} {pc : Pc} (h : pc.inside = false) :
    Knows wait room pc := by
  cases pc with
  | idle => trivial
  | waitP call => trivial
  | signalEnter call => trivial
  | test call => cases h
  | waitLeave call => cases h
  | body call => cases h
  | signalV call => cases h
  | leave call => cases h

omit [DecidableEq ι] in
/-- A write of a condition changes the number of the threads that wait for this one only. -/
theorem waiting_setCond (chat : Chat ι) (c : Cond) (cond : Condition) :
    (chat.setCond c cond).waiting = Function.update chat.waiting c cond.waitingCount := by
  funext e
  by_cases he : e = c
  · subst he
    simp [waiting, setCond]
  · simp [waiting, setCond, he]

omit [DecidableEq ι] in
/-- The units of all conditions together change by what is written to one of them. -/
theorem w_setCond (chat : Chat ι) (c : Cond) (cond : Condition) :
    ∑ e, ((chat.setCond c cond).cond e).w + (chat.cond c).w = ∑ e, (chat.cond e).w + cond.w :=
  sum_update (fun cond : Condition => cond.w) chat.cond c cond

/-- The units of one condition are some of all units. -/
theorem w_le_sum (cond : Cond → Condition) (c : Cond) : (cond c).w ≤ ∑ d, (cond d).w :=
  Finset.single_le_sum (f := fun d => (cond d).w) (fun _ _ => Nat.zero_le _) (Finset.mem_univ c)

variable [Fintype ι]

/-- The invariant of the runs. -/
structure Inv (capacity : Nat) (chat : Chat ι) : Prop where
  length_le : chat.buffer.length ≤ capacity
  /-- The monitor has one owner. -/
  owner : chat.s + count (fun t => t.pc.inside) chat.thread + ∑ c, (chat.cond c).w = 1
  waiters : ∀ c, count (fun t => t.pc.waitsFor c) chat.thread
    = chat.waiting c + (chat.cond c).w + count (fun t => t.pc.posts c) chat.thread
  calm : chat.s ≠ 0 → Calm chat.waiting (room capacity chat.buffer)
  handed : ∀ c, (chat.cond c).w ≠ 0 → HandedTo chat.waiting (room capacity chat.buffer) c
  places : ∀ j, Knows chat.waiting (room capacity chat.buffer) (chat.thread j).pc

omit [DecidableEq ι] in
/-- The units of one condition are not more than the one owner of the monitor. -/
theorem Inv.w_le (h : Inv capacity chat) (c : Cond) :
    chat.s + count (fun t => t.pc.inside) chat.thread + (chat.cond c).w ≤ 1 := by
  have hle := w_le_sum chat.cond c
  have := h.owner
  omega

/-- Two threads inside are the same one. -/
theorem Inv.inside_unique (h : Inv capacity chat) {i j : ι}
    (hi : (chat.thread i).pc.inside = true) (hj : (chat.thread j).pc.inside = true) : i = j := by
  have := h.owner
  exact eq_of_count_le_one (P := fun t : Thread => t.pc.inside) (by omega) hi hj

omit [DecidableEq ι] in
/-- Nobody is inside when the monitor is free or when a unit is on its way. -/
theorem Inv.outside (h : Inv capacity chat) (hfree : chat.s + ∑ c, (chat.cond c).w ≠ 0) (j : ι) :
    (chat.thread j).pc.inside = false := by
  have := h.owner
  exact count_eq_zero.mp (show count (fun t : Thread => t.pc.inside) chat.thread = 0 by omega) j

omit [DecidableEq ι] in
/-- A thread inside is the only owner. -/
theorem Inv.owner_inside (h : Inv capacity chat) (hi : (chat.thread i).pc.inside = true) :
    chat.s = 0 ∧ ∀ c, (chat.cond c).w = 0 := by
  have hpos := count_pos_of (P := fun t : Thread => t.pc.inside) hi
  constructor
  · have := h.w_le .full
    omega
  · intro c
    have := h.w_le c
    omega

omit [DecidableEq ι] in
/-- What the invariant says about a thread at a known place. -/
theorem Inv.knows (h : Inv capacity chat) {pc : Pc} (hpc : (chat.thread i).pc = pc) :
    Knows chat.waiting (room capacity chat.buffer) pc :=
  hpc ▸ h.places i

/-- The thread `i` was the owner, or the monitor was free, or a unit was on its way to `i`. It
is enough to look at `i` and at the owner after the step. -/
theorem Inv.pass (h : Inv capacity chat) {t : Thread}
    (hthread : chat'.thread = Function.update chat.thread i t)
    (hturn : (chat.thread i).pc.inside = true ∨ chat.s + ∑ c, (chat.cond c).w ≠ 0)
    (hlength : chat'.buffer.length ≤ capacity)
    (howner : chat'.s + t.pc.inside.toNat + ∑ c, (chat'.cond c).w
      = chat.s + (chat.thread i).pc.inside.toNat + ∑ c, (chat.cond c).w)
    (hwaiters : ∀ c, (t.pc.waitsFor c).toNat + chat.waiting c + (chat.cond c).w
        + ((chat.thread i).pc.posts c).toNat
      = ((chat.thread i).pc.waitsFor c).toNat + chat'.waiting c + (chat'.cond c).w
        + (t.pc.posts c).toNat)
    (hcalm : chat'.s ≠ 0 → Calm chat'.waiting (room capacity chat'.buffer))
    (hhanded : ∀ c, (chat'.cond c).w ≠ 0 →
      HandedTo chat'.waiting (room capacity chat'.buffer) c)
    (hknows : Knows chat'.waiting (room capacity chat'.buffer) t.pc) : Inv capacity chat' := by
  refine ⟨hlength, ?_, ?_, hcalm, hhanded, ?_⟩
  · have hinside := count_update (fun t : Thread => t.pc.inside) chat.thread i t
    have := h.owner
    rw [hthread]
    omega
  · -- The counts of the threads change by what `i` was and by what it is now.
    intro c
    have hwaits := count_update (fun t : Thread => t.pc.waitsFor c) chat.thread i t
    have hposts := count_update (fun t : Thread => t.pc.posts c) chat.thread i t
    have := h.waiters c
    have := hwaiters c
    rw [hthread]
    omega
  · intro j
    by_cases hj : j = i
    · rw [hthread, hj, Function.update_self]
      exact hknows
    · -- Any other thread is outside, because `i` or the free monitor was the owner.
      rw [hthread, Function.update_of_ne hj]
      refine knows_of_outside (Bool.eq_false_iff.mpr fun hin => ?_)
      rcases hturn with hi | hfree
      · exact hj (h.inside_unique hin hi)
      · rw [h.outside hfree j] at hin
        cases hin

omit [DecidableEq ι] in
/-- A thread inside, or a unit of `d` on its way, is the only owner. -/
theorem Inv.owner_other (h : Inv capacity chat) {d : Cond}
    (hturn : (chat.thread i).pc.inside = true ∨ (chat.cond d).w ≠ 0) :
    chat.s = 0 ∧ ∀ c, c ≠ d → (chat.cond c).w = 0 := by
  rcases hturn with hin | hw
  · obtain ⟨hs, hw⟩ := h.owner_inside hin
    exact ⟨hs, fun c _ => hw c⟩
  · have howner := h.owner
    -- The unit of `d` is the one owner, so that nothing is left for the other conditions.
    have hsum := Finset.sum_erase_add Finset.univ (fun c => (chat.cond c).w) (Finset.mem_univ d)
    refine ⟨by omega, ?_⟩
    intro c hc
    have hle := Finset.single_le_sum (f := fun c => (chat.cond c).w) (fun _ _ => Nat.zero_le _)
      (Finset.mem_erase.mpr ⟨hc, Finset.mem_univ c⟩)
    omega

/-- `Inv.pass` for a step that writes the condition `d`. -/
theorem Inv.passCond (h : Inv capacity chat) {t : Thread} {buffer : List Message} {d : Cond}
    {cond : Condition}
    (hturn : (chat.thread i).pc.inside = true ∨ (chat.cond d).w ≠ 0)
    (hlength : buffer.length ≤ capacity)
    (howner : t.pc.inside.toNat + cond.w = (chat.thread i).pc.inside.toNat + (chat.cond d).w)
    (hwaiters : (t.pc.waitsFor d).toNat + chat.waiting d + (chat.cond d).w
        + ((chat.thread i).pc.posts d).toNat
      = ((chat.thread i).pc.waitsFor d).toNat + cond.waitingCount + cond.w
        + (t.pc.posts d).toNat)
    (hothers : ∀ c, c ≠ d → t.pc.waitsFor c = (chat.thread i).pc.waitsFor c ∧
      t.pc.posts c = (chat.thread i).pc.posts c)
    (hhanded : cond.w ≠ 0 →
      HandedTo (Function.update chat.waiting d cond.waitingCount) (room capacity buffer) d)
    (hknows : Knows (Function.update chat.waiting d cond.waitingCount) (room capacity buffer)
      t.pc) : Inv capacity (({ chat with buffer }.setCond d cond).setThread i t) := by
  obtain ⟨hs, hw⟩ := h.owner_other hturn
  have hwaiting : (({ chat with buffer }.setCond d cond).setThread i t).waiting
      = Function.update chat.waiting d cond.waitingCount :=
    waiting_setCond { chat with buffer } d cond
  refine h.pass rfl (hturn.imp id fun hne => ?_) hlength ?_ ?_ (fun hne => absurd hs hne)
    ?_ (hwaiting ▸ hknows)
  · have := h.w_le d
    have := h.owner
    have hle := w_le_sum chat.cond d
    omega
  · have hsum := w_setCond { chat with buffer } d cond
    show chat.s + t.pc.inside.toNat + ∑ c, (({ chat with buffer }.setCond d cond).cond c).w = _
    dsimp only at hsum
    omega
  · intro c
    rw [hwaiting]
    by_cases hc : c = d
    · subst hc
      simpa [setThread, setCond] using hwaiters
    · obtain ⟨hsame, hsame'⟩ := hothers c hc
      rw [hsame, hsame']
      simp [setThread, setCond, hc]
  · intro c hc
    rw [hwaiting]
    by_cases hcd : c = d
    · subst hcd
      refine hhanded ?_
      simpa [setThread, setCond] using hc
    · simp [setThread, setCond, hcd, hw c hcd] at hc

/-- `enter()` of a thread that finds the monitor free: what holds of the free monitor is what the
thread knows. -/
theorem Inv.take (h : Inv capacity chat) {t : Thread} (hs : chat.s ≠ 0)
    (hout : (chat.thread i).pc.inside = false) (hin : t.pc.inside = true)
    (hsame : ∀ c, t.pc.waitsFor c = (chat.thread i).pc.waitsFor c ∧
      t.pc.posts c = (chat.thread i).pc.posts c)
    (hknows : Calm chat.waiting (room capacity chat.buffer) →
      Knows chat.waiting (room capacity chat.buffer) t.pc) :
    Inv capacity { chat.setThread i t with s := chat.s - 1 } := by
  have hcalm := h.calm hs
  refine h.pass rfl (Or.inr (by omega)) h.length_le ?_ ?_ (fun _ => hcalm) h.handed
    (hknows hcalm)
  · rw [hin, hout]
    show chat.s - 1 + 1 + ∑ c, (chat.cond c).w = chat.s + 0 + ∑ c, (chat.cond c).w
    omega
  · intro c
    obtain ⟨hwaits, hposts⟩ := hsame c
    rw [hwaits, hposts]
    rfl

/-- `leave()` of a thread inside, which knows what has to hold of the free monitor. -/
theorem Inv.release (h : Inv capacity chat) {t : Thread}
    (hin : (chat.thread i).pc.inside = true) (hout : t.pc.inside = false)
    (hsame : ∀ c, t.pc.waitsFor c = (chat.thread i).pc.waitsFor c ∧
      t.pc.posts c = (chat.thread i).pc.posts c)
    (hcalm : Calm chat.waiting (room capacity chat.buffer)) :
    Inv capacity { chat.setThread i t with s := chat.s + 1 } := by
  refine h.pass rfl (Or.inl hin) h.length_le ?_ ?_ (fun _ => hcalm) h.handed
    (knows_of_outside hout)
  · rw [hin, hout]
    show chat.s + 1 + 0 + ∑ c, (chat.cond c).w = chat.s + 1 + ∑ c, (chat.cond c).w
    omega
  · intro c
    obtain ⟨hwaits, hposts⟩ := hsame c
    rw [hwaits, hposts]
    rfl

/-- A thread that has to wait joins the queue of its condition, which has no unit to use. -/
theorem Inv.wait (h : Inv capacity chat) {call : Call} (hpc : (chat.thread i).pc = .test call)
    (hwait : call.mustWait capacity chat.buffer = true) :
    Inv capacity ((chat.setCond call.waitsOn
      { chat.cond call.waitsOn with
        waitingCount := (chat.cond call.waitsOn).waitingCount + 1 }).setThread i
      { chat.thread i with pc := .waitLeave call }) := by
  have hcalm := h.knows hpc
  have hroom := (mustWait_iff h.length_le).mp hwait
  have hin : (chat.thread i).pc.inside = true := by rw [hpc]; rfl
  have hw := (h.owner_inside hin).2 call.waitsOn
  refine h.passCond (Or.inl hin) h.length_le ?_ ?_ ?_ (fun hne => absurd hw hne)
    (hcalm.enqueue hroom _)
  · rw [hpc]
    rfl
  · rw [hpc]
    simp only [Pc.waitsFor, Pc.posts, beq_self_eq_true, waiting, Bool.toNat_true,
      Bool.toNat_false]
    omega
  · intro c hc
    rw [hpc]
    simp [Pc.waitsFor, Pc.posts, Ne.symm hc]

/-- A thread that has been signalled takes the unit of its condition, and the monitor with it. -/
theorem Inv.waitP (h : Inv capacity chat) {call : Call} (hpc : (chat.thread i).pc = .waitP call)
    (hw : (chat.cond call.waitsOn).w ≠ 0) :
    Inv capacity ((chat.setCond call.waitsOn
      { chat.cond call.waitsOn with w := (chat.cond call.waitsOn).w - 1 }).setThread i
      { chat.thread i with pc := .body call }) := by
  refine h.passCond (Or.inr hw) h.length_le ?_ ?_ ?_ ?_ ?_
  · rw [hpc]
    show 1 + ((chat.cond call.waitsOn).w - 1) = 0 + (chat.cond call.waitsOn).w
    omega
  · rw [hpc]
    simp only [Pc.waitsFor, Pc.posts, beq_self_eq_true, waiting, Bool.toNat_true,
      Bool.toNat_false]
    omega
  · intro c hc
    rw [hpc]
    simp [Pc.waitsFor, Pc.posts, Ne.symm hc]
  · -- There was one unit.
    intro hne
    have := h.w_le call.waitsOn
    exact absurd hne (by show ¬ (chat.cond call.waitsOn).w - 1 ≠ 0; omega)
  · show Served (Function.update chat.waiting call.waitsOn (chat.waiting call.waitsOn)) _ _
    rw [Function.update_eq_self]
    exact (h.handed _ hw).served

/-- A thread that made the first unit takes a waiting thread out of the count. -/
theorem Inv.hand (hpos : 0 < capacity) (h : Inv capacity chat) {call : Call} {t : Thread}
    {buffer : List Message} (hpc : (chat.thread i).pc = .body call)
    (huse : call.use (chat.thread i) chat.buffer = some (t, buffer))
    (hsignal : call.mustSignal capacity buffer = true)
    (hwaiting : (chat.cond call.signals).waitingCount ≠ 0) :
    Inv capacity (({ chat with buffer }.setCond call.signals
      { chat.cond call.signals with
        waitingCount := (chat.cond call.signals).waitingCount - 1 }).setThread i
      { t with pc := .signalV call }) := by
  have hserved := h.knows hpc
  have hin : (chat.thread i).pc.inside = true := by rw [hpc]; rfl
  obtain ⟨hlength, hmoved⟩ := use_moved h.length_le hserved.room_ne huse
  have hroom := (mustSignal_iff hpos hlength (by rw [hmoved.made]; omega)).mp hsignal
  have hw := (h.owner_inside hin).2 call.signals
  refine h.passCond (Or.inl hin) hlength ?_ ?_ ?_ (fun hne => absurd hw hne)
    (hserved.handedTo hmoved hroom _)
  · rw [hpc]
    rfl
  · rw [hpc]
    simp only [Pc.waitsFor, Pc.posts, beq_self_eq_true, waiting, Bool.toNat_true,
      Bool.toNat_false]
    omega
  · intro c hc
    rw [hpc]
    simp [Pc.waitsFor, Pc.posts, Ne.symm hc]

/-- A thread that did not make the first unit, or for which nobody waits, has nobody to signal. -/
theorem Inv.done (hpos : 0 < capacity) (h : Inv capacity chat) {call : Call} {t : Thread}
    {buffer : List Message} (hpc : (chat.thread i).pc = .body call)
    (huse : call.use (chat.thread i) chat.buffer = some (t, buffer))
    (hnone : call.mustSignal capacity buffer = false ∨
      (chat.cond call.signals).waitingCount = 0) :
    Inv capacity ({ chat with buffer }.setThread i { t with pc := .leave call }) := by
  have hserved := h.knows hpc
  have hin : (chat.thread i).pc.inside = true := by rw [hpc]; rfl
  obtain ⟨hlength, hmoved⟩ := use_moved h.length_le hserved.room_ne huse
  obtain ⟨hs, hw⟩ := h.owner_inside hin
  have hcalm : Calm chat.waiting (room capacity buffer) := by
    refine hserved.calm hmoved (hnone.imp ?_ id)
    intro hno h1
    rw [(mustSignal_iff hpos hlength (by omega)).mpr h1] at hno
    cases hno
  refine h.pass rfl (Or.inl hin) hlength ?_ ?_ (fun _ => hcalm)
    (fun c hne => absurd (hw c) hne) hcalm
  · rw [hpc]
    rfl
  · intro c
    rw [hpc]
    rfl

/-- The monitor goes with the unit to a thread that waits. -/
theorem Inv.signalV (h : Inv capacity chat) {call : Call}
    (hpc : (chat.thread i).pc = .signalV call) :
    Inv capacity ((chat.setCond call.signals
      { chat.cond call.signals with w := (chat.cond call.signals).w + 1 }).setThread i
      { chat.thread i with pc := .signalEnter call }) := by
  have hhanded := h.knows hpc
  have hin : (chat.thread i).pc.inside = true := by rw [hpc]; rfl
  refine h.passCond (Or.inl hin) h.length_le ?_ ?_ ?_ ?_ trivial
  · rw [hpc]
    show 0 + ((chat.cond call.signals).w + 1) = 1 + (chat.cond call.signals).w
    omega
  · rw [hpc]
    simp only [Pc.waitsFor, Pc.posts, beq_self_eq_true, waiting, Bool.toNat_true,
      Bool.toNat_false]
    omega
  · intro c hc
    rw [hpc]
    simp [Pc.waitsFor, Pc.posts, Ne.symm hc]
  · intro _
    show HandedTo (Function.update chat.waiting call.signals (chat.waiting call.signals)) _ _
    rw [Function.update_eq_self]
    exact hhanded

/-- Each step keeps the invariant. -/
theorem turn_inv (hpos : 0 < capacity) (h : Inv capacity chat)
    (hturn : Turn capacity chat i chat') : Inv capacity chat' := by
  cases hturn with
  | enter hpc hcalls hs =>
      refine h.take hs ?_ rfl ?_ id
      · rw [hpc]
        rfl
      · intro c
        rw [hpc]
        exact ⟨rfl, rfl⟩
  | wait hpc hwait => exact h.wait hpc hwait
  | @pass call hpc hpass =>
      have hcalm := h.knows hpc
      -- The thread tested, so it has one to use.
      have hroom : room capacity chat.buffer call.waitsOn ≠ 0 := fun h0 => by
        rw [(mustWait_iff h.length_le).mpr h0] at hpass
        cases hpass
      refine h.pass rfl (Or.inl (by rw [hpc]; rfl)) h.length_le ?_ ?_ h.calm h.handed
        (hcalm.served hroom)
      · rw [hpc]
        rfl
      · intro c
        rw [hpc]
        rfl
  | waitLeave hpc =>
      refine h.release ?_ rfl ?_ (h.knows hpc)
      · rw [hpc]
        rfl
      · intro c
        rw [hpc]
        exact ⟨rfl, rfl⟩
  | waitP hpc hw => exact h.waitP hpc hw
  | hand hpc huse hsignal hwaiting => exact h.hand hpos hpc huse hsignal hwaiting
  | done hpc huse hnone => exact h.done hpos hpc huse hnone
  | signalV hpc => exact h.signalV hpc
  | signalEnter hpc hs =>
      refine h.take hs ?_ rfl ?_ id
      · rw [hpc]
        rfl
      · intro c
        rw [hpc]
        exact ⟨rfl, rfl⟩
  | leave hpc =>
      refine h.release ?_ rfl ?_ (h.knows hpc)
      · rw [hpc]
        rfl
      · intro c
        rw [hpc]
        exact ⟨rfl, rfl⟩

omit [DecidableEq ι] in
/-- The monitor of a new buffer is free, and nobody waits. -/
theorem start_inv (program : ι → List Call) : Inv capacity (start program) := by
  have hcount : ∀ P : Thread → Bool, (∀ calls, P ⟨.idle, calls, [], []⟩ = false) →
      count P (start program).thread = 0 := fun P hP => count_eq_zero.mpr fun i => hP _
  refine ⟨Nat.zero_le _, ?_, ?_, fun _ e hwait => absurd rfl hwait,
    fun c hw => absurd rfl hw, fun j => trivial⟩
  · rw [hcount _ fun calls => rfl]
    rfl
  · intro c
    rw [hcount _ fun calls => rfl, hcount _ fun calls => rfl]
    rfl

/-- The invariant holds in each state of a run, since each step keeps it. -/
theorem reaches_inv (hpos : 0 < capacity) (h : Inv capacity chat)
    (hrun : Reaches capacity chat chat') : Inv capacity chat' :=
  Run.invariant hrun h fun _ _ h ⟨_, hnext⟩ => turn_inv hpos h (turn_of_next hnext)

end Chat

/-! ### The messages -/

/-- The messages of the calls of `send_msg`. -/
def messages (calls : List Call) : List Message :=
  calls.filterMap fun call => match call with
    | .sendMsg m => some m
    | .readMsg => none

/-- The number of the calls of `read_msg`. -/
def reads (calls : List Call) : Nat := calls.countP fun call => call == .readMsg

/-- The calls that have not used the list yet. -/
def Thread.left (t : Thread) : List Call :=
  match t.pc with
  | .test call => call :: t.calls
  | .waitLeave call => call :: t.calls
  | .waitP call => call :: t.calls
  | .body call => call :: t.calls
  | _ => t.calls

/-- What the thread sent and got is what its calls so far say. -/
structure Accounts (calls : List Call) (t : Thread) : Prop where
  sent : t.sent ++ messages t.left = messages calls
  got : t.got.length + reads t.left = reads calls

/-- The accounts of a thread depend on its program, and on what it has sent, got and left. -/
theorem Accounts.congr {calls : List Call} {t t' : Thread} (h : Accounts calls t)
    (hleft : t'.left = t.left) (hsent : t'.sent = t.sent) (hgot : t'.got = t.got) :
    Accounts calls t' := by
  obtain ⟨h₁, h₂⟩ := h
  constructor
  · rw [hleft, hsent, h₁]
  · rw [hleft, hgot, h₂]

/-- A call that uses the list. The message that it takes from one of the three places it puts
to another one. -/
theorem use_keeps {calls : List Call} {call : Call} {t t' : Thread} {buffer buffer' : List Message}
    (h : Accounts calls t) (hleft : t.left = call :: t.calls)
    (huse : call.use t buffer = some (t', buffer')) (pc : Pc)
    (hleft' : ({ t' with pc } : Thread).left = t'.calls) :
    Accounts calls { t' with pc } ∧ ∀ m, t'.got.count m + buffer'.count m + t.sent.count m
      = t.got.count m + buffer.count m + t'.sent.count m := by
  -- The call moves from the calls left to the ones made.
  obtain ⟨hsent, hgot⟩ := h
  rw [hleft] at hsent hgot
  cases call with
  | sendMsg m =>
      simp only [Call.use, Option.some.injEq, Prod.mk.injEq] at huse
      obtain ⟨rfl, rfl⟩ := huse
      refine ⟨⟨?_, ?_⟩, ?_⟩
      · rw [hleft']
        simpa [messages] using hsent
      · rw [hleft']
        simpa [reads] using hgot
      · intro x
        simp only [(Buffer.send_perm m buffer).count_eq x, List.count_cons, List.count_append,
          List.count_nil]
        omega
  | readMsg =>
      cases buffer with
      | nil => cases huse
      | cons m rest =>
          simp only [Call.use, Buffer.read, Option.bind_eq_bind, Option.bind_some,
            Option.some.injEq, Prod.mk.injEq] at huse
          obtain ⟨rfl, rfl⟩ := huse
          refine ⟨⟨?_, ?_⟩, ?_⟩
          · rw [hleft']
            simpa [messages] using hsent
          · rw [hleft']
            simp only [reads, List.countP_cons_of_pos, beq_self_eq_true, List.length_append,
              List.length_singleton] at hgot ⊢
            omega
          · intro x
            simp only [List.count_cons, List.count_append, List.count_nil]
            omega

namespace Chat

variable {ι : Type*} [DecidableEq ι] [Fintype ι] {capacity : Nat} {chat chat' : Chat ι} {i : ι}
  {program : ι → List Call}

/-- No message is lost or doubled. -/
structure Kept (program : ι → List Call) (chat : Chat ι) : Prop where
  total : ∀ m, ∑ j, (chat.thread j).got.count m + chat.buffer.count m
    = ∑ j, (chat.thread j).sent.count m
  accounts : ∀ j, Accounts (program j) (chat.thread j)

/-- A step of the thread `i`, which becomes `t`. -/
theorem Kept.update (h : Kept program chat) {t : Thread}
    (hthread : chat'.thread = Function.update chat.thread i t) (haccounts : Accounts (program i) t)
    (htotal : ∀ m, t.got.count m + chat'.buffer.count m + (chat.thread i).sent.count m
      = (chat.thread i).got.count m + chat.buffer.count m + t.sent.count m) :
    Kept program chat' := by
  constructor
  · intro m
    rw [hthread]
    exact balance_update (fun t : Thread => t.got.count m) (fun t => t.sent.count m) (h.total m)
      (htotal m)
  · intro j
    rw [hthread]
    by_cases hj : j = i
    · rw [hj, Function.update_self]
      exact haccounts
    · rw [Function.update_of_ne hj]
      exact h.accounts j

/-- A step that does not use the list. -/
theorem Kept.move (h : Kept program chat) {t : Thread}
    (hthread : chat'.thread = Function.update chat.thread i t)
    (hbuffer : chat'.buffer = chat.buffer)
    (hleft : t.left = (chat.thread i).left) (hsent : t.sent = (chat.thread i).sent)
    (hgot : t.got = (chat.thread i).got) : Kept program chat' := by
  refine h.update hthread ((h.accounts i).congr hleft hsent hgot) ?_
  intro m
  rw [hbuffer, hsent, hgot]

/-- A step keeps the accounts of all threads and the sum of the messages. Only the thread that uses
the list has something to book. -/
theorem turn_kept (h : Kept program chat) (hturn : Turn capacity chat i chat') :
    Kept program chat' := by
  cases hturn with
  | enter hpc hcalls _ =>
      refine h.move rfl rfl ?_ rfl rfl
      simp [Thread.left, hpc, hcalls]
  | wait hpc _ => exact h.move rfl rfl (by simp [Thread.left, hpc]) rfl rfl
  | pass hpc _ => exact h.move rfl rfl (by simp [Thread.left, hpc]) rfl rfl
  | waitLeave hpc => exact h.move rfl rfl (by simp [Thread.left, hpc]) rfl rfl
  | waitP hpc _ => exact h.move rfl rfl (by simp [Thread.left, hpc]) rfl rfl
  | @hand call t buffer hpc huse _ _ =>
      obtain ⟨haccounts, htotal⟩ := use_keeps (h.accounts i) (by simp [Thread.left, hpc]) huse
        (.signalV call) rfl
      exact h.update rfl haccounts htotal
  | @done call t buffer hpc huse _ =>
      obtain ⟨haccounts, htotal⟩ := use_keeps (h.accounts i) (by simp [Thread.left, hpc]) huse
        (.leave call) rfl
      exact h.update rfl haccounts htotal
  | signalV hpc => exact h.move rfl rfl (by simp [Thread.left, hpc]) rfl rfl
  | signalEnter hpc _ => exact h.move rfl rfl (by simp [Thread.left, hpc]) rfl rfl
  | leave hpc => exact h.move rfl rfl (by simp [Thread.left, hpc]) rfl rfl

/-- The accounts are right in each state of a run from a new buffer. -/
theorem reaches_kept (hrun : Reaches capacity (start program) chat) : Kept program chat := by
  refine Run.invariant hrun ⟨?_, fun j => ⟨rfl, ?_⟩⟩ fun _ _ h ⟨_, hnext⟩ =>
    turn_kept h (turn_of_next hnext)
  · intro m
    simp [start]
  · exact Nat.zero_add _

/-! ### Safety -/

/-- What the monitor promises, in a state that a run of `program` reached. -/
structure Safe (capacity : Nat) (program : ι → List Call) (chat : Chat ι) : Prop where
  /-- At most one thread is inside. -/
  exclusive : ∀ i j, (chat.thread i).pc.inside = true → (chat.thread j).pc.inside = true → i = j
  /-- Nobody is inside when the monitor is free. -/
  free : chat.s ≠ 0 → ∀ i, (chat.thread i).pc.inside = false
  /-- After `w.v()` the monitor belongs to a thread that waits for the condition: it is not free,
  nobody is inside, and no other unit is on its way. -/
  handed : ∀ c, (chat.cond c).w ≠ 0 →
    (chat.cond c).w = 1 ∧ (∀ d, d ≠ c → (chat.cond d).w = 0) ∧ chat.s = 0 ∧
    (∀ i, (chat.thread i).pc.inside = false) ∧
    ∃ i call, (chat.thread i).pc = .waitP call ∧ call.waitsOn = c
  /-- A thread that waited does not have to test again, and the list is never too long. -/
  sends : ∀ i m, (chat.thread i).pc = .body (.sendMsg m) → chat.buffer.length < capacity
  reads : ∀ i, (chat.thread i).pc = .body .readMsg → chat.buffer ≠ []
  length_le : chat.buffer.length ≤ capacity
  /-- The messages that were read and the ones in the list are the ones that were sent. -/
  total : ∑ i, ((chat.thread i).got : Multiset Message) + (chat.buffer : Multiset Message)
    = ∑ i, ((chat.thread i).sent : Multiset Message)
  accounts : ∀ i, Accounts (program i) (chat.thread i)

omit [DecidableEq ι] in
/-- Somebody waits for the unit that is on its way. -/
theorem Inv.exists_waitP (h : Inv capacity chat) {c : Cond} (hw : (chat.cond c).w ≠ 0) :
    ∃ i call, (chat.thread i).pc = .waitP call ∧ call.waitsOn = c := by
  have hwaiters := h.waiters c
  obtain ⟨i, hi⟩ := exists_of_count_ne_zero
    (show count (fun t : Thread => t.pc.waitsFor c) chat.thread ≠ 0 by omega)
  have hle := w_le_sum chat.cond c
  -- The thread that waits is not inside any more, so it is at `w.p()`.
  have hout := h.outside (by omega) i
  cases hpc : (chat.thread i).pc with
  | waitP call =>
      rw [hpc] at hi
      exact ⟨i, call, hpc, beq_iff_eq.mp hi⟩
  | waitLeave call =>
      rw [hpc] at hout
      cases hout
  | _ =>
      rw [hpc] at hi
      cases hi

/-- Any number of threads that send and read any messages, in any order of their steps, over a
list with room for at least one message. -/
theorem safe_of_reaches (capacity : Nat) (hpos : 0 < capacity) (program : ι → List Call)
    (chat : Chat ι) (hrun : Reaches capacity (start program) chat) :
    Safe capacity program chat := by
  have h := reaches_inv hpos (start_inv program) hrun
  have hkept := reaches_kept hrun
  refine ⟨fun i j => h.inside_unique, fun hs => h.outside (by omega), ?_,
    ?_, ?_, h.length_le, ?_, hkept.accounts⟩
  · intro c hw
    obtain ⟨i, call, hpc, hc⟩ := h.exists_waitP hw
    obtain ⟨hs, hother⟩ := h.owner_other (i := i) (Or.inr hw)
    have hone := h.w_le c
    have hle := w_le_sum chat.cond c
    exact ⟨by omega, hother, hs, h.outside (by omega), i, call, hpc, hc⟩
  · -- What a thread knows at the list is that it has one to use.
    intro i m hpc
    have hroom := (h.knows hpc).room_ne
    simp only [room, Call.waitsOn] at hroom
    omega
  · intro i hpc
    have hroom := (h.knows hpc).room_ne
    intro hnil
    rw [hnil] at hroom
    exact hroom rfl
  · refine Multiset.ext.mpr ?_
    intro m
    simp only [Multiset.count_add, Multiset.count_sum', Multiset.coe_count]
    exact hkept.total m

end Chat

/-! ### A reader that waits -/

/-- A user sends one message and a thread reads one. -/
def tinyProgram : Bool → List Call
  | false => priorityUser 7 1
  | true => reader 1

/-- The reader comes first and waits, and the user hands the monitor over to it. -/
def tinySchedule : List Bool := [true, true, true, false, false, false, false, true]

def tinyChat : Chat Bool :=
  (Run.schedule (Chat.next 1) (Chat.start tinyProgram) tinySchedule).getD (Chat.start tinyProgram)

/-- The schedule is a run. -/
theorem tinyChat_reached : Chat.Reaches 1 (Chat.start tinyProgram) tinyChat :=
  Run.of_schedule tinySchedule rfl

/-- The reader got the monitor from the user, and there is a message for it. -/
theorem safe_of_reaches_tiny :
    (tinyChat.thread true).pc = .body .readMsg ∧ tinyChat.buffer ≠ [] :=
  ⟨by decide, (Chat.safe_of_reaches 1 (by decide) tinyProgram tinyChat tinyChat_reached).reads
    true (by decide)⟩

end Soi.Monitory
