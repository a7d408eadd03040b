import Soi.Lib.History
import Soi.Lib.Threads

/-!
# `Soi.Lib.Delivery`: how many messages are sent and read in the end

Threads send to a mailbox with room for `capacity` messages and read from it, and no thread does
both (`OneRole`). Where they can go no further, a thread that has still to send has found the
mailbox full, and one that has still to read has found it empty. `Linearized.delivered` is what
follows: the numbers of the messages that were sent and read depend on the programs only.
-/

set_option autoImplicit false

namespace Soi.Lib

section
variable {ι α θ τ : Type*}

/-- No thread both sends and reads. -/
def OneRole (program : ι → List (Call α)) : Prop :=
  ∀ i, reads (program i) = 0 ∨ sends (program i) = []

variable [Fintype ι]

/-- The number of the messages that the threads send. -/
def allSends (program : ι → List (Call α)) : Nat := ∑ i, (sends (program i)).length

/-- The number of the messages that they read. -/
def allReads (program : ι → List (Call α)) : Nat := ∑ i, reads (program i)

/-- Nothing is sent at all just when each of the programs sends nothing. -/
theorem allSends_eq_zero {program : ι → List (Call α)} :
    allSends program = 0 ↔ ∀ i, sends (program i) = [] := by
  simp [allSends, Finset.sum_eq_zero_iff]

/-- Nothing is read at all just when each of the programs reads nothing. -/
theorem allReads_eq_zero {program : ι → List (Call α)} :
    allReads program = 0 ↔ ∀ i, reads (program i) = 0 := by
  simp [allReads, Finset.sum_eq_zero_iff]

/-- Calls that send nothing and read nothing are no calls. -/
theorem eq_nil_of_sends_reads {cs : List (Call α)} (hsends : sends cs = [])
    (hreads : reads cs = 0) : cs = [] := by
  cases cs with
  | nil => rfl
  | cons call cs =>
      cases call with
      | send m => cases hsends
      | read => cases hreads

/-- As many messages as possible were sent and read. Nothing is left to do when there was a message
for each call of `read`, and a reader or a place for each message. -/
structure Delivered (view : View θ α) (capacity : Nat) (program : ι → List (Call α))
    (g : ι → θ) : Prop where
  got : ∑ i, (view.got (g i)).length = min (allReads program) (allSends program)
  sent : ∑ i, (view.sent (g i)).length = min (allSends program) (allReads program + capacity)
  finished : (∀ i, view.left (g i) = []) ↔
    allReads program ≤ allSends program ∧ allSends program ≤ allReads program + capacity

variable [DecidableEq ι] {view : View θ α} {box : Mailbox α τ} {events : List (Event ι α)}
  {f g : ι → θ} {a b : τ} {capacity size : Nat}

omit [Fintype ι] in
/-- A thread that has still to send does not read, so that its next call is to send. -/
theorem Linearized.send_first (h : Linearized view box events f g a b)
    (hnew : ∀ i, view.sent (f i) = []) (hread : ∀ i, view.got (f i) = [])
    (hone : OneRole fun i => view.left (f i)) {i : ι} (hi : sends (view.left (g i)) ≠ []) :
    ∃ m rest, view.left (g i) = .send m :: rest := by
  -- What is left of the program is a part of it, so that it has no call of `read` either.
  have hsent := h.sent_left (hnew i)
  have hgot := h.got_left (hread i)
  have hnone : reads (view.left (f i)) = 0 := by
    refine (hone i).resolve_right ?_
    intro hnil
    rw [hnil] at hsent
    exact hi (List.append_eq_nil_iff.mp hsent).2
  cases hleft : view.left (g i) with
  | nil =>
      rw [hleft] at hi
      exact absurd rfl hi
  | cons call rest =>
      cases call with
      | send m => exact ⟨m, rest, rfl⟩
      | read =>
          rw [hnone, hleft] at hgot
          exact absurd hgot (Nat.succ_ne_zero _)

omit [Fintype ι] in
/-- A thread that has still to read does not send. -/
theorem Linearized.read_first (h : Linearized view box events f g a b)
    (hnew : ∀ i, view.sent (f i) = []) (hread : ∀ i, view.got (f i) = [])
    (hone : OneRole fun i => view.left (f i)) {i : ι} (hi : reads (view.left (g i)) ≠ 0) :
    ∃ rest, view.left (g i) = .read :: rest := by
  have hsent := h.sent_left (hnew i)
  have hgot := h.got_left (hread i)
  have hnone : sends (view.left (f i)) = [] := by
    refine (hone i).resolve_left ?_
    intro hzero
    rw [hzero] at hgot
    exact hi (Nat.add_eq_zero_iff.mp hgot).2
  cases hleft : view.left (g i) with
  | nil =>
      rw [hleft] at hi
      exact absurd rfl hi
  | cons call rest =>
      cases call with
      | read => exact ⟨rest, rfl⟩
      | send m =>
          rw [hnone, hleft] at hsent
          exact absurd (List.append_eq_nil_iff.mp hsent).2 (List.cons_ne_nil m _)

/-- Where a call that is left has found the mailbox full or empty. -/
theorem Linearized.delivered (h : Linearized view box events f g a b)
    (hnew : ∀ i, view.sent (f i) = []) (hread : ∀ i, view.got (f i) = [])
    (hone : OneRole fun i => view.left (f i)) (hpos : 0 < capacity) (hle : size ≤ capacity)
    (hbalance : ∑ i, (view.got (g i)).length + size = ∑ i, (view.sent (g i)).length)
    (hfull : ∀ i m rest, view.left (g i) = .send m :: rest → size = capacity)
    (hempty : ∀ i rest, view.left (g i) = .read :: rest → size = 0) :
    Delivered view capacity (fun i => view.left (f i)) g := by
  -- Each message of the programs is sent or left, and each call of `read` is over or left.
  have hsends : ∑ i, (view.sent (g i)).length + allSends (fun i => view.left (g i))
      = allSends fun i => view.left (f i) := by
    rw [allSends, ← Finset.sum_add_distrib]
    refine Finset.sum_congr rfl ?_
    intro i _
    rw [← h.sent_left (hnew i), List.length_append]
  have hreads : ∑ i, (view.got (g i)).length + allReads (fun i => view.left (g i))
      = allReads fun i => view.left (f i) := by
    rw [allReads, ← Finset.sum_add_distrib]
    exact Finset.sum_congr rfl fun i _ => h.got_left (hread i)
  -- Where something is left to send the mailbox is full, and where something is left to read it is
  -- empty. Both at once cannot be, as there is room for a message.
  have hsending : allSends (fun i => view.left (g i)) ≠ 0 → size = capacity := by
    intro hne
    obtain ⟨i, hi⟩ := not_forall.mp (mt allSends_eq_zero.mpr hne)
    obtain ⟨m, rest, hleft⟩ := h.send_first hnew hread hone hi
    exact hfull i m rest hleft
  have hreading : allReads (fun i => view.left (g i)) ≠ 0 → size = 0 := by
    intro hne
    obtain ⟨i, hi⟩ := not_forall.mp (mt allReads_eq_zero.mpr hne)
    obtain ⟨rest, hleft⟩ := h.read_first hnew hread hone hi
    exact hempty i rest hleft
  have hdone : (∀ i, view.left (g i) = []) ↔ allSends (fun i => view.left (g i)) = 0 ∧
      allReads (fun i => view.left (g i)) = 0 := by
    rw [allSends_eq_zero, allReads_eq_zero]
    constructor
    · intro hnil
      exact ⟨fun i => by rw [hnil i]; rfl, fun i => by rw [hnil i]; rfl⟩
    · rintro ⟨hnosends, hnoreads⟩ i
      exact eq_nil_of_sends_reads (hnosends i) (hnoreads i)
  -- Now the three numbers are fixed by `hsends`, `hreads` and `hbalance`.
  refine ⟨by omega, by omega, ?_⟩
  rw [hdone]
  omega

end

end Soi.Lib
