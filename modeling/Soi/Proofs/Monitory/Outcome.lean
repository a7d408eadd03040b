import Mathlib.Algebra.BigOperators.Ring.Finset
import Soi.Lib.Delivery
import Soi.Lib.Work
import Soi.Proofs.Monitory.History
import Soi.Proofs.Monitory.Progress

/-!
# `Soi.Proofs.Monitory.Outcome`: where a chat ends

A call takes at most eight steps, so that each interleaving comes to an end. Where it ends depends
on the interleaving only in who is left waiting: when no thread both sends and reads, the numbers of
the messages that were sent and read are fixed by the program (`outcome_of_program`). All threads
come to their end when there are enough messages for the readers, and enough places for the rest of
them.
-/

set_option autoImplicit false

namespace Soi.Monitory

open Soi.Lib

/-- The steps that the current call still takes at most. -/
def Pc.work : Pc → Nat
  | .idle => 0
  | .leave _ => 1
  | .signalEnter _ => 2
  | .signalV _ => 3
  | .body _ => 4
  | .waitP _ => 5
  | .waitLeave _ => 6
  | .test _ => 7

/-- The steps that a thread still takes at most. -/
def Thread.work (t : Thread) : Nat := t.pc.work + 8 * t.calls.length

/-- Using the list does not change the calls to come. -/
theorem calls_of_use {call : Call} {t t' : Thread} {buffer buffer' : List Message}
    (huse : call.use t buffer = some (t', buffer')) : t'.calls = t.calls := by
  cases call with
  | sendMsg m =>
      simp only [Call.use, Option.some.injEq, Prod.mk.injEq] at huse
      rw [← huse.1]
  | readMsg =>
      cases buffer with
      | nil => cases huse
      | cons m rest =>
          simp only [Call.use, Buffer.read, Option.bind_eq_bind, Option.bind_some,
            Option.some.injEq, Prod.mk.injEq] at huse
          rw [← huse.1]

namespace Chat

variable {ι : Type*} [DecidableEq ι] [Fintype ι] {capacity : Nat} {chat chat' : Chat ι} {i : ι}
  {program : ι → List Call}

/-- The steps that all threads still take at most. -/
def work (chat : Chat ι) : Nat := ∑ i, (chat.thread i).work

/-- When one thread has less to do and the others have as much as before, there is less to do. -/
theorem work_lt {t : Thread} (hthread : chat'.thread = Function.update chat.thread i t)
    (hlt : t.work < (chat.thread i).work) : chat'.work < chat.work := by
  have hsum := sum_update Thread.work chat.thread i t
  unfold work
  rw [hthread]
  omega

/-- Each step leaves less to do. A call that waits goes back to a place in front of the use of the
list, but not to the test. -/
theorem turn_work (hturn : Turn capacity chat i chat') : chat'.work < chat.work := by
  cases hturn with
  | enter hpc hcalls _ =>
      -- `enter()` takes the next call, which counts eight, and goes to a place that counts seven.
      refine work_lt rfl ?_
      simp only [Thread.work, hpc, hcalls, Pc.work, List.length_cons]
      omega
  | wait hpc _ => exact work_lt rfl (by simp [Thread.work, hpc, Pc.work])
  | pass hpc _ => exact work_lt rfl (by simp [Thread.work, hpc, Pc.work])
  | waitLeave hpc => exact work_lt rfl (by simp [Thread.work, hpc, Pc.work])
  | waitP hpc _ => exact work_lt rfl (by simp [Thread.work, hpc, Pc.work])
  | hand hpc huse _ _ =>
      refine work_lt rfl ?_
      simp [Thread.work, hpc, Pc.work, calls_of_use huse]
  | done hpc huse _ =>
      refine work_lt rfl ?_
      simp [Thread.work, hpc, Pc.work, calls_of_use huse]
  | signalV hpc => exact work_lt rfl (by simp [Thread.work, hpc, Pc.work])
  | signalEnter hpc _ => exact work_lt rfl (by simp [Thread.work, hpc, Pc.work])
  | leave hpc => exact work_lt rfl (by simp [Thread.work, hpc, Pc.work])

/-- The work of the threads pays for the steps. -/
theorem next_spends : Spends (next (ι := ι) capacity) work :=
  fun _ _ _ hnext => turn_work (turn_of_next hnext)

omit [DecidableEq ι] in
/-- At the start there are eight steps to do at most for each call. -/
theorem work_start (program : ι → List Call) :
    (start program).work = 8 * ∑ i, (program i).length := by
  rw [Finset.mul_sum]
  exact Finset.sum_congr rfl fun i _ => Nat.zero_add _

/-! ### Totals -/

/-- The calls of the programs, for the mailbox. -/
def callsOf (program : ι → List Call) (i : ι) : List (Lib.Call Message) :=
  (program i).map Call.toLib

/-- The end of a chat: as many messages as possible were sent and read. All threads came to their
end when there was a message for each call of `read_msg`, and a reader or a place for each
message. -/
structure Delivered (capacity : Nat) (program : ι → List Call) (chat : Chat ι) : Prop where
  got : ∑ i, (chat.thread i).got.length
    = min (allReads (callsOf program)) (allSends (callsOf program))
  sent : ∑ i, (chat.thread i).sent.length
    = min (allSends (callsOf program)) (allReads (callsOf program) + capacity)
  finished : (∀ i, chat.Finished i) ↔
    allReads (callsOf program) ≤ allSends (callsOf program) ∧
      allSends (callsOf program) ≤ allReads (callsOf program) + capacity

omit [DecidableEq ι] [Fintype ι] in
/-- The first call that a thread has left, where it has finished or waits. -/
theorem left_of_stuck (h : chat.Finished i ∨ ∃ call, (chat.thread i).pc = .waitP call) :
    ((chat.thread i).left = [] ↔ chat.Finished i) ∧ ∀ call rest,
      (chat.thread i).left = call :: rest → (chat.thread i).pc = .waitP call := by
  rcases h with hfin | ⟨call, hpc⟩
  -- A thread at its end has no calls, and one that waits has the call with which it waits.
  · have hnil : (chat.thread i).left = [] := by
      unfold Thread.left
      rw [hfin.1]
      exact hfin.2
    refine ⟨⟨fun _ => hfin, fun _ => hnil⟩, ?_⟩
    intro call rest hleft
    rw [hnil] at hleft
    cases hleft
  · have hcons : (chat.thread i).left = call :: (chat.thread i).calls := by
      unfold Thread.left
      rw [hpc]
    rw [hcons]
    refine ⟨⟨fun hnil => absurd hnil (List.cons_ne_nil _ _), fun hfin => ?_⟩, ?_⟩
    · rw [hfin.1] at hpc
      cases hpc
    · intro call' rest hleft
      rw [hpc, (List.cons.inj hleft).1]

/-- Where no thread can take a step, the calls that are left wait for the list, which is full or
empty. -/
theorem delivered_of_run (hpos : 0 < capacity) (hone : OneRole (callsOf program))
    {schedule : List ι} (hrun : Run.schedule (next capacity) (start program) schedule = some chat)
    (hstuck : ∀ i, chat.next capacity i = none) : Delivered capacity program chat := by
  obtain ⟨events, classes, -, hlinear, -⟩ := linearized_classes hpos hrun
  have hreaches := Run.of_schedule schedule hrun
  have h := reaches_inv hpos (start_inv program) hreaches
  obtain ⟨hquiet, hall⟩ := h.stuck hstuck
  have hwaits : ∀ i call rest, Thread.view.left (chat.thread i) = call :: rest →
      ∃ call', call'.toLib = call ∧ (chat.thread i).pc = .waitP call' := by
    intro i call rest hleft
    obtain ⟨call', rest', hcons, hcall, -⟩ := List.map_eq_cons_iff.mp hleft
    exact ⟨call', hcall, (left_of_stuck (hall i)).2 call' rest' hcons⟩
  -- With nobody inside the monitor, only a full list keeps a sender waiting.
  have hfull : ∀ i m rest, Thread.view.left (chat.thread i) = .send m :: rest →
      chat.buffer.length = capacity := by
    intro i m rest hleft
    obtain ⟨call, hcall, hpc⟩ := hwaits i _ rest hleft
    cases call with
    | sendMsg m' => exact (h.length_of_waits hquiet).2 m' hpc
    | readMsg => cases hcall
  have hempty : ∀ i rest, Thread.view.left (chat.thread i) = .read :: rest →
      chat.buffer.length = 0 := by
    intro i rest hleft
    obtain ⟨call, hcall, hpc⟩ := hwaits i _ rest hleft
    cases call with
    | sendMsg m' => cases hcall
    | readMsg => rw [(h.length_of_waits hquiet).1 hpc, List.length_nil]
  obtain ⟨hgot, hsent, hfinished⟩ := hlinear.delivered (fun _ => rfl) (fun _ => rfl) hone hpos
    h.length_le (balance_length (reaches_kept hreaches).total) hfull hempty
  refine ⟨hgot, hsent, Iff.trans ?_ hfinished⟩
  refine forall_congr' fun i => ?_
  -- To have no calls left is to be at the end: a thread that waits still has its call.
  show _ ↔ (chat.thread i).left.map Call.toLib = []
  rw [List.map_eq_nil_iff]
  exact (left_of_stuck (hall i)).1.symm

/-- Any number of threads that send or read any messages: each interleaving ends, and each end is
the same up to who waits. -/
theorem outcome_of_program (capacity : Nat) (hpos : 0 < capacity) (program : ι → List Call)
    (hone : OneRole (callsOf program)) :
    Outcome (next capacity) (start program) (8 * ∑ i, (program i).length)
      (Delivered capacity program) := by
  rw [← work_start program]
  refine Outcome.of_work next_spends ?_
  intro schedule chat hschedule hended
  exact delivered_of_run hpos hone hschedule hended

end Chat

/-- A user sends one message, and a thread reads it. -/
theorem outcome_of_program_tiny : Lib.Outcome (Chat.next 1) (Chat.start tinyProgram) 16
    (Chat.Delivered 1 tinyProgram) := by
  refine Chat.outcome_of_program 1 (by decide) tinyProgram ?_
  intro i
  cases i with
  | false => exact Or.inl rfl
  | true => exact Or.inr rfl

end Soi.Monitory
