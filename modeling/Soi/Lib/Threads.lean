import Mathlib.Algebra.BigOperators.Group.Finset.Basic
import Mathlib.Algebra.BigOperators.Group.Finset.Piecewise
import Mathlib.Algebra.Order.BigOperators.Group.Finset
import Mathlib.Data.Fintype.BigOperators

/-!
# `Soi.Lib.Threads`: sums over the threads of a program

A program of finitely many threads has one state for each of them, as a function. A step
writes the state of one thread. `sum_update` is what the step does to a sum over all threads,
and `count_update` to the number of threads of one kind. The invariant of a semaphore is such a
number: how many threads hold a unit of it.
-/

set_option autoImplicit false

namespace Soi.Lib

section
variable {ι α : Type*} [Fintype ι] [DecidableEq ι] {f : ι → α} {P Q : α → Bool}

/-- A write to one thread exchanges its summand. -/
theorem sum_update {M : Type*} [AddCommMonoid M] (g : α → M) (f : ι → α) (i : ι) (a : α) :
    ∑ j, g (Function.update f i a j) + g (f i) = ∑ j, g (f j) + g a := by
  have hrest : ∑ j ∈ Finset.univ.erase i, g (Function.update f i a j)
      = ∑ j ∈ Finset.univ.erase i, g (f j) :=
    Finset.sum_congr rfl fun j hj => by
      rw [Function.update_of_ne (Finset.ne_of_mem_erase hj)]
  rw [← Finset.sum_erase_add _ _ (Finset.mem_univ i), hrest, Function.update_self,
    ← Finset.sum_erase_add _ (fun j => g (f j)) (Finset.mem_univ i)]
  exact add_right_comm _ _ _

/-- Threads move units from what they have sent to a store, and from there to what they have got.
The balance is kept when the step of one thread keeps it. -/
theorem balance_update (got sent : α → Nat) {store store' : Nat} {i : ι} {a : α}
    (h : ∑ j, got (f j) + store = ∑ j, sent (f j))
    (hstep : got a + store' + sent (f i) = got (f i) + store + sent a) :
    ∑ j, got (Function.update f i a j) + store' = ∑ j, sent (Function.update f i a j) := by
  have hgot := sum_update got f i a
  have hsent := sum_update sent f i a
  omega

omit [DecidableEq ι] in
/-- When each message is in the balance, the number of the messages is. -/
theorem balance_length [DecidableEq α] {got sent : ι → List α} {store : List α}
    (h : ∀ m, ∑ j, (got j).count m + store.count m = ∑ j, (sent j).count m) :
    ∑ j, (got j).length + store.length = ∑ j, (sent j).length := by
  have hall : ∑ j, (got j : Multiset α) + (store : Multiset α) = ∑ j, (sent j : Multiset α) := by
    refine Multiset.ext.mpr ?_
    intro m
    simp only [Multiset.count_add, Multiset.count_sum', Multiset.coe_count]
    exact h m
  have hcard := congrArg Multiset.card hall
  simp only [Multiset.card_add, Multiset.card_sum, Multiset.coe_card] at hcard
  exact hcard

/-- The number of threads whose state satisfies `P`. -/
def count (P : α → Bool) (f : ι → α) : Nat := ∑ i, (P (f i)).toNat

/-- When one thread changes, the number of the threads with a property changes by what this one was
and by what it is now. -/
theorem count_update (P : α → Bool) (f : ι → α) (i : ι) (a : α) :
    count P (Function.update f i a) + (P (f i)).toNat = count P f + (P a).toNat :=
  sum_update (fun a => (P a).toNat) f i a

omit [DecidableEq ι] in
/-- No thread has the property. -/
theorem count_eq_zero : count P f = 0 ↔ ∀ i, P (f i) = false := by
  simp [count, Finset.sum_eq_zero_iff]

omit [DecidableEq ι] in
/-- A thread with the property, when there are some. -/
theorem exists_of_count_ne_zero (h : count P f ≠ 0) : ∃ i, P (f i) = true := by
  by_contra hall
  refine h (count_eq_zero.mpr fun i => ?_)
  exact Bool.eq_false_iff.mpr fun hi => hall ⟨i, hi⟩

omit [DecidableEq ι] in
/-- One thread with the property is enough. -/
theorem count_pos_of {i : ι} (h : P (f i) = true) : 0 < count P f := by
  refine Nat.pos_of_ne_zero ?_
  intro h0
  rw [count_eq_zero.mp h0 i] at h
  cases h

/-- One thread of the kind leaves no room for another one when there is at most one. -/
theorem eq_of_count_le_one (h : count P f ≤ 1) {i j : ι} (hi : P (f i) = true)
    (hj : P (f j) = true) : i = j := by
  by_contra hne
  -- Without the thread `i` there is still `j`.
  have hrest := Finset.sum_erase_add Finset.univ (fun k => (P (f k)).toNat) (Finset.mem_univ i)
  have hle := Finset.single_le_sum (f := fun k => (P (f k)).toNat) (fun _ _ => Nat.zero_le _)
    (Finset.mem_erase.mpr ⟨Ne.symm hne, Finset.mem_univ j⟩)
  simp only [hi, hj, Bool.toNat_true] at hrest hle
  rw [count] at h
  omega

end

end Soi.Lib
