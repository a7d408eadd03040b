import Mathlib.Algebra.Ring.Int.Defs
import Soi.Proofs.Szeregowanie.Rotation

/-!
# `Soi.Proofs.Szeregowanie.Waiting`: how long a process waits for the head of the queue

The calls of `sched` that a process has left are in its slot, and no other call writes them. So the
time until a process is at the head is the sum over the processes in front of it, whatever the
callers of `set_scheduler` and `change_group` do in the meantime, and whoever forks. `run_waits`
is the invariant of a run: the processes in front that have had their turn are behind, in their
order, and those that have not have the rest of the sum.
-/

set_option autoImplicit false

namespace Soi.Szeregowanie.Kernel

section
variable {k k' : Kernel} {a b : Int} {l l₁ l₂ : List Int} {call : Call} {calls : List Call}

/-- The calls of `sched` until all processes of the list have had their turn. -/
def wait (k : Kernel) (l : List Int) : Int := (l.map k.due).sum

/-- First the calls for the head of the list, and then those for the others. -/
theorem wait_cons (k : Kernel) (a : Int) (l : List Int) : k.wait (a :: l) = k.due a + k.wait l :=
  List.sum_cons

/-- The time to wait depends only on what is due to the processes. -/
theorem wait_congr (h : ∀ i ∈ l, k'.due i = k.due i) : k'.wait l = k.wait l := by
  rw [wait, wait, List.map_congr_left h]

/-- Each process in front takes at least one call, and at most as many as the largest quantum. -/
theorem length_le_wait (h : ∀ i ∈ l, 1 ≤ k.due i) : (l.length : Int) ≤ k.wait l := by
  induction l with
  | nil => exact le_refl _
  | cons a l ih =>
      have ha := h a List.mem_cons_self
      have hl := ih fun i hi => h i (List.mem_cons_of_mem a hi)
      rw [wait_cons, List.length_cons]
      omega

/-- Nobody has more than 99 calls, so that the time to wait is bounded by the length of the queue.
-/
theorem wait_le (h : ∀ i ∈ l, k.due i ≤ 99) : k.wait l ≤ 99 * l.length := by
  induction l with
  | nil => exact le_refl _
  | cons a l ih =>
      have ha := h a List.mem_cons_self
      have hl := ih fun i hi => h i (List.mem_cons_of_mem a hi)
      rw [wait_cons, List.length_cons]
      omega

/-! ### One call -/

/-- Calls of the others leave what is due. -/
theorem due_step (h : k.Queued l) (hcall : call ≠ .sched) (hstep : k.step call = some k') :
    k'.Queued l ∧ ∀ i ∈ l, k'.due i = k.due i := by
  obtain ⟨hqueued, hsame⟩ := step_keeps h hcall hstep
  refine ⟨hqueued, ?_⟩
  intro i hi
  rw [due, due, (hsame i hi).1, (hsame i hi).2]

/-- What a call of `sched` does to the others and to the queue. -/
theorem due_of_ne (hwrites : k.WritesHead a k') {i : Int} (hi : i ≠ a) : k'.due i = k.due i := by
  obtain ⟨next, hproc⟩ := hwrites.other i hi
  rw [due, due, hproc]

/-- A call that writes the head only keeps the priorities in the queue. -/
theorem Queued.of_writesHead {l' : List Int} (h : k.Queued l) (hwrites : k.WritesHead a k')
    (hq : k'.UserQ l') (hmem : ∀ i ∈ l', i ∈ l) : k'.Queued l' := by
  refine ⟨hq, ?_⟩
  intro i hi
  have hinUse := h.inUse i (hmem i hi)
  by_cases hia : i = a
  · subst hia
    obtain ⟨first, ticks, next, hproc⟩ := hwrites.head
    rw [hproc]
    exact hinUse
  · obtain ⟨next, hproc⟩ := hwrites.other i hia
    rw [hproc]
    exact hinUse

/-- The head goes to the end, or it has one call less. -/
theorem sched_due (h : k.Queued (b :: l)) (hpos : 1 ≤ k.due b) (hstep : k.sched = some k') :
    (∀ i ≠ b, k'.due i = k.due i) ∧
      ((k'.Queued (l ++ [b]) ∧ k.due b = 1) ∨
        (k'.Queued (b :: l) ∧ k'.due b = k.due b - 1 ∧ 1 ≤ k'.due b)) := by
  obtain ⟨k₁, hsched, hwrites, hturn, -⟩ := sched_userQ h.userQ
  obtain rfl := Option.some.inj (hsched.symm.trans hstep)
  refine ⟨fun i hi => due_of_ne hwrites hi, ?_⟩
  by_cases hlast : k.LastTurn b
  · refine Or.inl ⟨h.of_writesHead hwrites (hturn hlast) ?_, due_lastTurn hlast⟩
    intro i hi
    exact (List.perm_append_singleton b l).mem_iff.mp hi
  · have hstay := sched_stay h.userQ hlast
    obtain rfl := Option.some.inj (hstay.symm.trans hsched)
    obtain ⟨hne, hdue⟩ := due_tick hlast
    exact Or.inr ⟨h.setProc rfl rfl, hdue, by omega⟩

/-! ### A run -/

/-- Some of the processes in front of `a` have had their turn, and the others have the rest of the
calls. -/
theorem run_waits (h : k.Queued (l₁ ++ a :: l₂)) (hpos : ∀ i ∈ l₁, 1 ≤ k.due i)
    (hrun : k.run calls = some k') (hcount : (calls.count .sched : Int) ≤ k.wait l₁) :
    ∃ past rest, l₁ = past ++ rest ∧ k'.Queued (rest ++ a :: (l₂ ++ past)) ∧
      (∀ i ∈ rest, 1 ≤ k'.due i) ∧ k'.wait rest = k.wait l₁ - calls.count .sched := by
  -- The process in front that is at the head goes to the end of `l₂` in the induction.
  induction calls generalizing k l₁ l₂ with
  | nil =>
      obtain rfl := Option.some.inj hrun
      refine ⟨[], l₁, rfl, ?_, hpos, ?_⟩
      · rw [List.append_nil]
        exact h
      · rw [List.count_nil]
        exact (Int.sub_zero _).symm
  | cons call calls ih =>
      obtain ⟨mid, hstep, hmidRun⟩ := exists_of_run_cons hrun
      by_cases hcall : call = .sched
      · subst hcall
        rw [List.count_cons_self] at hcount ⊢
        cases l₁ with
        | nil =>
            -- Nobody is in front, and nothing is left to wait for.
            have hzero : k.wait [] = 0 := rfl
            omega
        | cons b l₁ =>
            rw [List.cons_append] at h
            have hb := hpos b List.mem_cons_self
            have hnodup : b ∉ l₁ ++ a :: l₂ :=
              (List.nodup_cons.mp h.userQ.seg.nodup).1
            obtain ⟨hother, hturn⟩ := sched_due h hb hstep
            have hrest : ∀ i ∈ l₁, mid.due i = k.due i := by
              intro i hi
              refine hother i ?_
              rintro rfl
              exact hnodup (List.mem_append_left _ hi)
            have hposRest : ∀ i ∈ l₁, 1 ≤ mid.due i := by
              intro i hi
              rw [hrest i hi]
              exact hpos i (List.mem_cons_of_mem b hi)
            have hwait := wait_congr hrest
            rw [wait_cons] at hcount ⊢
            rcases hturn with ⟨hqueued, hone⟩ | ⟨hqueued, hdue, hposMid⟩
            -- The turn of the head is over, and one process less is in front.
            · rw [List.append_assoc, List.cons_append] at hqueued
              obtain ⟨past, rest, rfl, hq, hrestPos, hrestWait⟩ :=
                ih hqueued hposRest hmidRun (by omega)
              rw [List.append_assoc, List.singleton_append] at hq
              exact ⟨b :: past, rest, rfl, hq, hrestPos, by omega⟩
            -- The head has one call less, and it stays where it is.
            · have hmidPos : ∀ i ∈ b :: l₁, 1 ≤ mid.due i :=
                List.forall_mem_cons.mpr ⟨hposMid, hposRest⟩
              have hmidWait := wait_cons mid b l₁
              have hqueued' : mid.Queued (b :: l₁ ++ a :: l₂) := hqueued
              obtain ⟨past, rest, hsplit, hq, hrestPos, hrestWait⟩ :=
                ih hqueued' hmidPos hmidRun (by omega)
              exact ⟨past, rest, hsplit, hq, hrestPos, by omega⟩
      -- The other calls change neither the queue nor what is due.
      · obtain ⟨hqueued, hsame⟩ := due_step h hcall hstep
        have hrest : ∀ i ∈ l₁, mid.due i = k.due i := fun i hi =>
          hsame i (List.mem_append_left _ hi)
        have hwait := wait_congr hrest
        rw [List.count_cons_of_ne hcall] at hcount ⊢
        obtain ⟨past, rest, hsplit, hq, hrestPos, hrestWait⟩ := ih hqueued
          (fun i hi => by rw [hrest i hi]; exact hpos i hi) hmidRun (by omega)
        exact ⟨past, rest, hsplit, hq, hrestPos, by omega⟩

end

/-- A process waits for the processes in front of it, and for nothing else. From a state with
sensible quanta it is at the head after exactly as many calls of `sched` as they have left, and not
before, in every run of calls by whoever, with whatever arguments. These are at most 99 for each
process in front. -/
theorem waits_exactly (k : Kernel) (l₁ l₂ : List Int) (a : Int) (h : k.Inv (l₁ ++ a :: l₂)) :
    ((l₁.length : Int) ≤ k.wait l₁ ∧ k.wait l₁ ≤ 99 * l₁.length) ∧
    ∀ calls k', k.run calls = some k' →
      ((calls.count .sched : Int) < k.wait l₁ → ∃ b ∈ l₁, b ≠ a ∧ k'.rdyHead = some b) ∧
      ((calls.count .sched : Int) = k.wait l₁ → k'.UserQ (a :: (l₂ ++ l₁))) := by
  have hdue : ∀ i ∈ l₁, 1 ≤ k.due i ∧ k.due i ≤ 99 := by
    intro i hi
    have hticks := h.ticks i (List.mem_append_left _ hi)
    rw [due]
    split_ifs
    · omega
    · exact hticks
  have hpos : ∀ i ∈ l₁, 1 ≤ k.due i := fun i hi => (hdue i hi).1
  refine ⟨⟨length_le_wait hpos, wait_le fun i hi => (hdue i hi).2⟩, ?_⟩
  intro calls k' hrun
  have hnodup := h.queued.userQ.seg.nodup
  constructor
  · intro hlt
    obtain ⟨past, rest, rfl, hq, -, hwait⟩ := run_waits h.queued hpos hrun hlt.le
    cases rest with
    | nil =>
        have hzero : k'.wait [] = 0 := rfl
        omega
    | cons b rest =>
        refine ⟨b, by simp, ?_, hq.userQ.seg.1⟩
        rintro rfl
        -- The process would be on the queue twice.
        have hdisjoint := (List.nodup_append.mp hnodup).2.2
        exact hdisjoint b (by simp) b List.mem_cons_self rfl
  · intro heq
    obtain ⟨past, rest, rfl, hq, hrest, hwait⟩ := run_waits h.queued hpos hrun heq.le
    have hlength := length_le_wait hrest
    have hnil : rest = [] := List.eq_nil_of_length_eq_zero (by omega)
    subst hnil
    rw [List.append_nil]
    exact hq.userQ

/-- The first turn of the head ends after one call, whatever was set before. -/
theorem waits_exactly_tiny : ∃ k', tinyKernel.run [.setsched 0 0, .chgroup 1, .sched] = some k' ∧
    k'.UserQ [1, 0] := by
  obtain ⟨-, hwaits⟩ := waits_exactly tinyKernel [0] [] 1 tinyKernel_inv
  refine ⟨_, rfl, ?_⟩
  exact (hwaits [.setsched 0 0, .chgroup 1, .sched] _ rfl).2 (by decide)

end Soi.Szeregowanie.Kernel
