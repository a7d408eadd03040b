import Mathlib.Logic.Relation

/-!
# `Soi.Lib.Run`: invariants of runs

A system is a step relation on its states, and a run is its reflexive transitive closure.
`Run.invariant` is the rule for safety properties: what each step keeps holds along a run.

A call that can fail is a value of `Except`, and `exists_of_bind` takes a sequence of calls apart.

In a system of threads, `next s i` is the state after a step of the thread `i`, if it has one, and
`Run.schedule` is the state after the steps of a list of threads.
-/

set_option autoImplicit false

namespace Soi.Lib

universe u

/-- When a sequence of calls returns, its first call did. -/
theorem exists_of_bind {ε : Type*} {α β : Type u} {call : Except ε α} {rest : α → Except ε β}
    {b : β} (hok : (call >>= rest) = .ok b) : ∃ a, call = .ok a ∧ rest a = .ok b := by
  cases call with
  | error e => cases hok
  | ok a => exact ⟨a, rfl, hok⟩

/-- A property that each step keeps holds after a run when it held before. -/
theorem Run.invariant {σ : Type*} {step : σ → σ → Prop} {P : σ → Prop}
    {s s' : σ} (hrun : Relation.ReflTransGen step s s') (h : P s)
    (hstep : ∀ s s', P s → step s s' → P s') : P s' := by
  induction hrun with
  | refl => exact h
  | tail _ hlast ih => exact hstep _ _ ih hlast

/-- The state after each thread of the list took a step. -/
def Run.schedule {σ ι : Type*} (next : σ → ι → Option σ) (s : σ) : List ι → Option σ
  | [] => some s
  | i :: threads =>
      match next s i with
      | none => none
      | some s => Run.schedule next s threads

/-- A schedule is a run. -/
theorem Run.of_schedule {σ ι : Type*} {next : σ → ι → Option σ} {s s' : σ} (threads : List ι)
    (h : Run.schedule next s threads = some s') :
    Relation.ReflTransGen (fun s s' => ∃ i, next s i = some s') s s' := by
  induction threads generalizing s with
  | nil => exact Option.some.inj h ▸ .refl
  | cons i threads ih =>
      rw [Run.schedule] at h
      cases hnext : next s i with
      | none =>
          rw [hnext] at h
          cases h
      | some mid =>
          rw [hnext] at h
          exact .head ⟨i, hnext⟩ (ih h)

end Soi.Lib
