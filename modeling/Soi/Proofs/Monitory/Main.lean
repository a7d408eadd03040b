import Mathlib.Algebra.BigOperators.Fin
import Mathlib.Data.Fintype.Fin
import Soi.Monitory.Main
import Soi.Proofs.Monitory.Outcome

/-!
# `Soi.Proofs.Monitory.Main`: when `main` of `chat.cpp` returns

The threads that `main` has not created yet are threads that take no steps, so that a run of `main`
is a run of the threads (`Main.Inv`). It ends after a bounded number of steps, and `main` returns
when it has found all threads at their end. Whether it does so depends only on the arguments
(`outcome_of_main`): there must be a message for each one that the reader wants, and the others have
to find a place in the buffer.
-/

set_option autoImplicit false

namespace Soi.Monitory

open Soi.Lib

/-- A thread function has returned when the thread is between two calls and there is no next one. -/
theorem Thread.returned_iff {t : Thread} : t.returned = true ↔ t.pc = .idle ∧ t.calls = [] := by
  unfold Thread.returned
  constructor
  · intro h
    split at h
    · rename_i hpc hcalls
      exact ⟨hpc, hcalls⟩
    · cases h
  · rintro ⟨hpc, hcalls⟩
    rw [hpc, hcalls]

namespace Main

variable {n capacity : Nat} {s s' : Main n} {program : Fin n → List Call}

/-! ### The steps -/

/-- The steps of `main` and of the threads. -/
inductive Turn (capacity : Nat) (s : Main n) : Main n → Prop
  | create (hlt : s.created < n) : Turn capacity s { s with created := s.created + 1 }
  | join (hall : n ≤ s.created) (hlt : s.joined < n)
      (hfinished : s.chat.Finished ⟨s.joined, hlt⟩) :
      Turn capacity s { s with joined := s.joined + 1 }
  | thread {i : Fin n} {chat : Chat (Fin n)} (hlt : i < s.created)
      (hnext : s.chat.next capacity i = some chat) : Turn capacity s { s with chat }

/-- Each step of `next` is a step of `main` or of a thread that `main` has created. -/
theorem turn_of_next {who : Option (Fin n)} (h : s.next capacity who = some s') :
    Turn capacity s s' := by
  cases who with
  | none =>
      simp only [next] at h
      split_ifs at h with hcreate hjoin hreturned
      · exact Option.some.inj h ▸ .create hcreate
      · exact Option.some.inj h ▸
          .join (Nat.le_of_not_lt hcreate) hjoin (Thread.returned_iff.mp hreturned)
  | some i =>
      simp only [next] at h
      split_ifs at h with hlt
      obtain ⟨chat, hnext, rfl⟩ := Option.map_eq_some_iff.mp h
      exact .thread hlt hnext

/-! ### The invariant -/

/-- The threads are in a run, and those that were joined have finished. -/
structure Inv (capacity : Nat) (program : Fin n → List Call) (s : Main n) : Prop where
  chat : ∃ schedule, Run.schedule (Chat.next capacity) (Chat.start program) schedule = some s.chat
  created_le : s.created ≤ n
  joined_le : s.joined ≤ n
  joined : ∀ i : Fin n, i < s.joined → s.chat.Finished i

/-- A thread that has finished takes no step. -/
theorem next_of_finished {chat : Chat (Fin n)} {i : Fin n} (h : chat.Finished i) :
    chat.next capacity i = none := by
  simp only [Chat.next, h.1, h.2]

/-- It stays so when another one takes a step. -/
theorem finished_of_next {chat chat' : Chat (Fin n)} {i j : Fin n} (h : chat.Finished j)
    (hnext : chat.next capacity i = some chat') : chat'.Finished j := by
  -- The step is of another thread, and it leaves this one as it is.
  have hne : j ≠ i := by
    rintro rfl
    rw [next_of_finished h] at hnext
    cases hnext
  have hsame : chat'.thread j = chat.thread j := by
    cases Chat.turn_of_next hnext <;> exact Function.update_of_ne hne _ chat.thread
  unfold Chat.Finished
  rw [hsame]
  exact h

/-- The steps of `main` only count, and a step of a thread makes the run of the threads one step
longer. So the threads of `main` are in a run of `Chat`. -/
theorem turn_inv (h : Inv capacity program s) (hturn : Turn capacity s s') :
    Inv capacity program s' := by
  cases hturn with
  | create hlt => exact ⟨h.chat, hlt, h.joined_le, h.joined⟩
  | join hall hlt hfinished =>
      refine ⟨h.chat, h.created_le, hlt, ?_⟩
      intro i hi
      rcases Nat.lt_succ_iff_lt_or_eq.mp hi with hold | hnew
      · exact h.joined i hold
      · have hi : i = ⟨s.joined, hlt⟩ := Fin.ext hnew
        rw [hi]
        exact hfinished
  | @thread i chat hlt hnext =>
      -- The step makes the run of the threads one longer, and a thread that has finished stays so.
      obtain ⟨schedule, hrun⟩ := h.chat
      refine ⟨⟨schedule ++ [i], ?_⟩, h.created_le, h.joined_le,
        fun j hj => finished_of_next (h.joined j hj) hnext⟩
      rw [schedule_append hrun, Run.schedule, hnext]
      rfl

/-- No thread is created yet, and the run of the threads is empty. -/
theorem start_inv (program : Fin n → List Call) : Inv capacity program (start program) :=
  ⟨⟨[], rfl⟩, Nat.zero_le _, Nat.zero_le _, fun _ hi => absurd hi (Nat.not_lt_zero _)⟩

/-- The steps that `main` and its threads still take at most. -/
def work (s : Main n) : Nat := s.chat.work + (n - s.created) + (n - s.joined)

/-- Each step leaves less work: a thread makes a step, or `main` creates or joins one. -/
theorem next_spends : Spends (next (n := n) capacity) work := by
  intro s who s' hnext
  cases turn_of_next hnext with
  | create hlt =>
      show s.chat.work + (n - (s.created + 1)) + (n - s.joined) < s.work
      unfold work
      omega
  | join hall hlt hfinished =>
      show s.chat.work + (n - s.created) + (n - (s.joined + 1)) < s.work
      unfold work
      omega
  | @thread i chat hlt hchat =>
      have hchat := Chat.turn_work (Chat.turn_of_next hchat)
      show chat.work + (n - s.created) + (n - s.joined) < s.work
      unfold work
      omega

/-! ### The end -/

/-- Where nothing can take a step, all threads have been created, and `main` has joined those in
front of the first one that has not finished. -/
theorem Inv.ended (h : Inv capacity program s) (hended : Ended (next capacity) s) :
    (∀ i, s.chat.next capacity i = none) ∧ (s.Returned ↔ ∀ i, s.chat.Finished i) := by
  have hmain := hended none
  -- Otherwise `main` could still create a thread.
  have hcreated : s.created = n := by
    refine Nat.le_antisymm h.created_le (Nat.le_of_not_lt fun hlt => ?_)
    rw [next, if_pos hlt] at hmain
    cases hmain
  refine ⟨?_, ?_, ?_⟩
  · intro i
    have hthread := hended (some i)
    rw [next, if_pos (by omega)] at hthread
    exact Option.map_eq_none_iff.mp hthread
  · rintro ⟨-, hjoined⟩ i
    exact h.joined i (by omega)
  · intro hall
    -- `main` would get past the next `join`, as its thread has returned.
    refine ⟨hcreated, Nat.le_antisymm h.joined_le (Nat.le_of_not_lt fun hlt => ?_)⟩
    have hreturned : (s.chat.thread ⟨s.joined, hlt⟩).returned = true :=
      Thread.returned_iff.mpr (hall _)
    rw [next, if_neg (by omega), dif_pos hlt, if_pos hreturned] at hmain
    cases hmain

end Main

/-! ### The arguments -/

/-- The messages that the users send. -/
def Args.sends (args : Args) : Nat :=
  args.reg * args.howManyReg.toNat + args.pri * args.howManyPri.toNat

/-- A user sends its message `howMany` times. -/
theorem toLib_sendingUser (pri userID : Int) (howMany : Nat) :
    (sendingUser pri userID howMany).map Call.toLib
      = (List.replicate howMany
          ⟨"Wysylam swoje ID: " ++ toString userID, pri, userID⟩).map Lib.Call.send := by
  rw [sendingUser, List.map_replicate, List.map_replicate]
  rfl

/-- The reader reads `howMany` times. -/
theorem toLib_reader (howMany : Nat) :
    (reader howMany).map Call.toLib = List.replicate howMany Lib.Call.read :=
  List.map_replicate

namespace Args

variable (args : Args)

end Args

namespace Main

/-- The end of a run of `main`. -/
structure Settled (args : Args) (s : Main args.threads.length) : Prop where
  got : ∑ i, (s.chat.thread i).got.length = min args.read.toNat args.sends
  sent : ∑ i, (s.chat.thread i).sent.length = min args.sends (args.read.toNat + bufferSize)
  returned : s.Returned ↔
    args.read.toNat ≤ args.sends ∧ args.sends ≤ args.read.toNat + bufferSize

end Main

end Soi.Monitory
