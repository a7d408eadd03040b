import Mathlib.Data.List.Nodup
import Mathlib.Logic.Function.Iterate

/-!
# `Soi.Lib.Cycle`: a search around a cycle

Elements in a cycle have a successor `next`, and `OnCycle next o m` says that from `o` it takes `m`
steps to come back. `around next o m` are the elements behind `o`, once around and up to `o` itself.
None of them is there twice (`OnCycle.nodup_around`).

`search` is the loop that looks for an element at which `body` succeeds. It takes a step before it
tries an element, and it ends after it has tried `o`. By `OnCycle.search_eq` it tries the elements
of `around`, one after the other, which is `tryEach`.
-/

set_option autoImplicit false

namespace Soi.Lib

section
variable {ι : Type*}

/-- The elements behind `o`. -/
def around (next : ι → ι) (o : ι) (m : Nat) : List ι :=
  (List.range m).map fun k => next^[k + 1] o

/-- The cycle through `o` has `m` elements. -/
structure OnCycle (next : ι → ι) (o : ι) (m : Nat) : Prop where
  pos : 0 < m
  back : next^[m] o = o
  first : ∀ k, 0 < k → k < m → next^[k] o ≠ o

variable {next : ι → ι} {o i : ι} {m : Nat}

/-- The slots of a round from `o` on are those that some of the first `m` steps reach. The round
starts behind `o`. -/
theorem mem_around : i ∈ around next o m ↔ ∃ k < m, next^[k + 1] o = i := by
  rw [around, List.mem_map]
  exact exists_congr fun k => and_congr_left fun _ => List.mem_range

/-- Two different steps around the cycle do not lead to the same element, since the rest of the way
back to `o` would be of two lengths. -/
theorem OnCycle.nodup_around (h : OnCycle next o m) : (around next o m).Nodup := by
  have hlt : ∀ j k, j < k → k < m → next^[j + 1] o ≠ next^[k + 1] o := by
    intro j k hjk hk heq
    have hback : next^[m - (k + 1) + (j + 1)] o = o := by
      rw [Function.iterate_add_apply, heq, ← Function.iterate_add_apply,
        Nat.sub_add_cancel (by omega), h.back]
    exact h.first _ (by omega) (by omega) hback
  refine List.Nodup.map_on ?_ List.nodup_range
  intro j hj k hk heq
  rw [List.mem_range] at hj hk
  by_contra hne
  rcases Nat.lt_or_gt_of_ne hne with hjk | hkj
  · exact hlt j k hjk hk heq
  · exact hlt k j hkj hj heq.symm

end

section
variable {ι ε α : Type*} {body : ι → Except ε (Option α)} {l : List ι} {a : α}

/-- The result at the first element at which `body` succeeds. -/
def tryEach (body : ι → Except ε (Option α)) : List ι → Except ε (Option α)
  | [] => .ok none
  | i :: l =>
      match body i with
      | .error e => .error e
      | .ok (some a) => .ok (some a)
      | .ok none => tryEach body l

/-- The search found nothing when `body` failed everywhere. -/
theorem tryEach_eq_none : tryEach body l = .ok none ↔ ∀ i ∈ l, body i = .ok none := by
  induction l with
  | nil => simp [tryEach]
  | cons i l ih =>
      rw [tryEach, List.forall_mem_cons]
      split
      · rename_i hi
        simp [hi]
      · rename_i hi
        simp [hi]
      · rename_i hi
        simp [hi, ih]

/-- The search ended at an element that it found. -/
theorem exists_of_tryEach (h : tryEach body l = .ok (some a)) :
    ∃ i ∈ l, body i = .ok (some a) := by
  induction l with
  | nil => cases h
  | cons i l ih =>
      rw [tryEach] at h
      split at h
      · cases h
      · rename_i hi
        exact ⟨i, List.mem_cons_self, hi.trans h⟩
      · obtain ⟨j, hj, hbody⟩ := ih h
        exact ⟨j, List.mem_cons_of_mem i hj, hbody⟩

/-- A search in which nothing goes wrong has a result. -/
theorem tryEach_total (h : ∀ i ∈ l, ∃ r, body i = .ok r) : ∃ r, tryEach body l = .ok r := by
  induction l with
  | nil => exact ⟨none, rfl⟩
  | cons i l ih =>
      obtain ⟨hi, hl⟩ := List.forall_mem_cons.mp h
      obtain ⟨r, hr⟩ := hi
      rw [tryEach, hr]
      cases r with
      | none => exact ih hl
      | some a => exact ⟨some a, rfl⟩

end

section
variable {ι ε α : Type*} [DecidableEq ι]

/-- The loop: `next`, then `body`, until something is found or the element is `o`. `endless` is the
error of a loop that does not end. -/
def search (next : ι → ι) (body : ι → Except ε (Option α)) (o : ι) (endless : ε) :
    (fuel : Nat) → ι → Except ε (Option α)
  | 0, _ => .error endless
  | fuel + 1, i =>
      match body (next i) with
      | .error e => .error e
      | .ok (some a) => .ok (some a)
      | .ok none =>
          if next i = o then
            .ok none
          else
            search next body o endless fuel (next i)

variable {next : ι → ι} {body : ι → Except ε (Option α)} {o : ι} {endless : ε} {m fuel : Nat}

/-- The loop from the `j`-th element on tries the rest of the cycle. -/
theorem OnCycle.search_from (h : OnCycle next o m) {j : Nat} (hj : j < m) (hfuel : m - j ≤ fuel) :
    search next body o endless fuel (next^[j] o) = tryEach body ((around next o m).drop j) := by
  induction fuel generalizing j with
  | zero => omega
  | succ fuel ih =>
      have hlen : j < (around next o m).length := by simpa [around] using hj
      have hget : (around next o m)[j] = next^[j + 1] o := by simp [around]
      rw [search, List.drop_eq_getElem_cons hlen, tryEach, hget,
        ← Function.iterate_succ_apply' next j o]
      cases body (next^[j + 1] o) with
      | error e => rfl
      | ok r =>
          cases r with
          | some a => rfl
          | none =>
              show (if next^[j + 1] o = o then _ else _) = tryEach body _
              by_cases hlast : j + 1 = m
              · -- Back at `o`.
                rw [if_pos (hlast ▸ h.back), List.drop_eq_nil_of_le (by simp [around, hlast])]
                rfl
              · rw [if_neg (h.first (j + 1) (by omega) (by omega))]
                exact ih (by omega) (by omega)

/-- The loop that starts behind `o` goes around the cycle once. -/
theorem OnCycle.search_eq (h : OnCycle next o m) (hfuel : m ≤ fuel) :
    search next body o endless fuel o = tryEach body (around next o m) :=
  h.search_from (j := 0) h.pos hfuel

end

end Soi.Lib
