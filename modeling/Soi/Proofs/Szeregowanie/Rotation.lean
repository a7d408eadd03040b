import Soi.Proofs.Szeregowanie.Kernel

/-!
# `Soi.Proofs.Szeregowanie.Rotation`: one call of `sched` on the user queue

`sched` puts the head at the end of the queue or leaves the queue alone. `sched_first`, `sched_over`
and `sched_stay` are the branches, and all that they write is the head, and the pointer of the tail.
The queue may have one process, which is then its own successor for two lines of `sched`.
-/

set_option autoImplicit false

namespace Soi.Szeregowanie.Kernel

section
variable {k k' : Kernel} {a : Int} {l : List Int}

/-- What a call of `sched` may write when the process `a` is the head. -/
structure WritesHead (k : Kernel) (a : Int) (k' : Kernel) : Prop where
  procTime : k'.procTime = k.procTime
  head : ∃ first ticks next, k'.proc a
    = { k.proc a with pFirst := first, pTicks := ticks, pNextready := next }
  /-- Of another process there is only the pointer to write. -/
  other : ∀ i ≠ a, ∃ next, k'.proc i = { k.proc i with pNextready := next }
  /-- This process is the tail. -/
  frame : ∀ i ≠ a, some i ≠ k.rdyTail → k'.proc i = k.proc i

/-- A turn that ends writes the head and the links of the queue. -/
theorem Rotated.writesHead {first ticks : Int}
    (h : k.Rotated a l { k.proc a with pFirst := first, pTicks := ticks } k') :
    k.WritesHead a k' := by
  obtain ⟨next, ha⟩ := h.head
  exact ⟨h.procTime, ⟨first, ticks, next, ha⟩, h.other, h.frame⟩

/-- A call that takes a tick from the head. -/
theorem writesHead_setProc (ticks : Int) :
    k.WritesHead a (k.setProc a { k.proc a with pTicks := ticks }) := by
  refine ⟨rfl, ⟨(k.proc a).pFirst, ticks, (k.proc a).pNextready, setProc_proc_self a _⟩, ?_, ?_⟩
  · intro i hi
    exact ⟨(k.proc i).pNextready, setProc_proc_of_ne _ hi⟩
  · intro i hi _
    exact setProc_proc_of_ne _ hi

/-- The queue after one call. -/
theorem sched_userQ (h : k.UserQ (a :: l)) : ∃ k', k.sched = some k' ∧ k.WritesHead a k' ∧
    (k.LastTurn a → k'.UserQ (l ++ [a])) ∧ (¬ k.LastTurn a → k'.UserQ (a :: l)) := by
  by_cases hfirst : (k.proc a).pFirst = 1
  · obtain ⟨k', hsched, hrotated⟩ := sched_first h hfirst
    exact ⟨k', hsched, hrotated.writesHead, fun _ => hrotated.userQ,
      fun hlast => absurd (Or.inl hfirst) hlast⟩
  · by_cases hticks : (k.proc a).pTicks = 1
    · obtain ⟨k', hsched, hrotated⟩ := sched_over h hfirst hticks
      exact ⟨k', hsched, hrotated.writesHead, fun _ => hrotated.userQ,
        fun hlast => absurd (Or.inr hticks) hlast⟩
    · have hlast : ¬ k.LastTurn a := fun hlast => hlast.elim hfirst hticks
      exact ⟨_, sched_stay h hlast, writesHead_setProc _, fun h => absurd h hlast,
        fun _ => h.setProc rfl⟩

end

/-- `sched` leaves an empty queue alone. On any other one the processes are the same, and the head
goes to the end just when it is there for the first time or its decremented ticks are 0. Nothing is
written but `p_first` and `p_ticks` of the head, and the pointers of the head and of the tail. -/
theorem sched_rotates (k : Kernel) (l : List Int) (h : k.UserQ l) :
    match l with
    | [] => k.sched = some k
    | a :: rest => ∃ k', k.sched = some k' ∧ k.WritesHead a k' ∧ (rest ++ [a]).Nodup ∧
        ((k.proc a).pFirst = 1 ∨ (k.proc a).pTicks - 1 = 0 → k'.UserQ (rest ++ [a])) ∧
        (¬ ((k.proc a).pFirst = 1 ∨ (k.proc a).pTicks - 1 = 0) → k'.UserQ (a :: rest)) := by
  cases l with
  | nil => exact sched_nil h
  | cons a rest =>
      have hlast : (k.proc a).pFirst = 1 ∨ (k.proc a).pTicks - 1 = 0 ↔ k.LastTurn a :=
        or_congr_right (by omega)
      obtain ⟨k', hsched, hwrites, hturn, hstay⟩ := sched_userQ h
      have hnodup : (rest ++ [a]).Nodup := by
        have hperm : (a :: rest).Perm (rest ++ [a]) := (List.perm_append_singleton a rest).symm
        exact hperm.nodup_iff.mp h.seg.nodup
      refine ⟨k', hsched, hwrites, hnodup, ?_, ?_⟩
      · rw [hlast]
        exact hturn
      · rw [hlast]
        exact hstay

/-- The two processes change their places. -/
theorem sched_rotates_tiny : ∃ k', tinyKernel.sched = some k' ∧ k'.UserQ [1, 0] := by
  obtain ⟨k', hsched, -, -, hturn, -⟩ := sched_rotates tinyKernel [0, 1]
    tinyKernel_inv.queued.userQ
  exact ⟨k', hsched, hturn (Or.inr rfl)⟩

end Soi.Szeregowanie.Kernel
