import Soi.Lib.Run

/-!
# `Soi.Lib.Work`: systems that come to an end

In a system of threads each step can leave less work than there was before it. Then no schedule has
more steps than the work at its start (`schedule_length_le`), and a schedule that stops early can be
continued until no thread can take a step (`exists_ended`).

`Outcome` is a property of the ends of all schedules, with a bound for their lengths, and
`Outcome.of_work` is the rule for it.
-/

set_option autoImplicit false

namespace Soi.Lib

section
variable {σ ι : Type*} {next : σ → ι → Option σ} {work : σ → Nat} {s t u : σ}

/-- No thread can take a step. -/
def Ended (next : σ → ι → Option σ) (s : σ) : Prop := ∀ i, next s i = none

/-- Each step leaves less work. -/
def Spends (next : σ → ι → Option σ) (work : σ → Nat) : Prop :=
  ∀ s i s', next s i = some s' → work s' < work s

/-- A schedule after another one. -/
theorem schedule_append {threads more : List ι} (h : Run.schedule next s threads = some t) :
    Run.schedule next s (threads ++ more) = Run.schedule next t more := by
  induction threads generalizing s with
  | nil =>
      obtain rfl := Option.some.inj h
      rfl
  | cons i threads ih =>
      rw [List.cons_append, Run.schedule]
      rw [Run.schedule] at h
      cases hnext : next s i with
      | none =>
          rw [hnext] at h
          cases h
      | some s' =>
          rw [hnext] at h
          exact ih h

/-- The steps of a schedule are paid from the work at its start. -/
theorem schedule_length_le (hspends : Spends next work) {threads : List ι}
    (h : Run.schedule next s threads = some t) : threads.length + work t ≤ work s := by
  induction threads generalizing s with
  | nil =>
      obtain rfl := Option.some.inj h
      exact Nat.le_of_eq (Nat.zero_add _)
  | cons i threads ih =>
      rw [Run.schedule] at h
      cases hnext : next s i with
      | none =>
          rw [hnext] at h
          cases h
      | some s' =>
          rw [hnext] at h
          have hrest := ih h
          have hfirst := hspends s i s' hnext
          rw [List.length_cons]
          omega

/-- Any state can be continued to an end. -/
theorem exists_ended (hspends : Spends next work) (s : σ) :
    ∃ threads t, Run.schedule next s threads = some t ∧ Ended next t := by
  -- Induction on the work that is left.
  induction hwork : work s using Nat.strongRecOn generalizing s with
  | ind n ih =>
      by_cases hended : Ended next s
      · exact ⟨[], s, rfl, hended⟩
      · obtain ⟨i, hi⟩ := Classical.not_forall.mp hended
        obtain ⟨s', hnext⟩ := Option.ne_none_iff_exists'.mp hi
        obtain ⟨threads, t, hrun, ht⟩ := ih (work s') (hwork ▸ hspends s i s' hnext) s' rfl
        refine ⟨i :: threads, t, ?_, ht⟩
        rw [Run.schedule, hnext]
        exact hrun

/-- Whatever the order of the steps, the system comes to an end after at most `n` of them, and
there `P` holds. -/
structure Outcome (next : σ → ι → Option σ) (s : σ) (n : Nat) (P : σ → Prop) : Prop where
  bounded : ∀ threads t, Run.schedule next s threads = some t → threads.length ≤ n
  reached : ∀ threads t, Run.schedule next s threads = some t →
    ∃ more u, Run.schedule next s (threads ++ more) = some u ∧ Ended next u
  ended : ∀ threads t, Run.schedule next s threads = some t → Ended next t → P t

/-- The rule: each step leaves less work, and what a schedule reaches has `P` where it is at an
end. -/
theorem Outcome.of_work (hspends : Spends next work) {P : σ → Prop}
    (hended : ∀ threads t, Run.schedule next s threads = some t → Ended next t → P t) :
    Outcome next s (work s) P where
  bounded threads t h := by
    have := schedule_length_le hspends h
    omega
  reached threads t h := by
    obtain ⟨more, u, hmore, hu⟩ := exists_ended hspends t
    exact ⟨more, u, (schedule_append h).trans hmore, hu⟩
  ended := hended

end

end Soi.Lib
