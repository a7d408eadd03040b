import Soi.Proofs.Pamiec.HoleList

/-!
# `Soi.Proofs.Pamiec.Restore`: the hole list depends on the allocated clicks only

A run of allocations and frees moves clicks between the holes and the blocks, in any order and in
either placement mode. The holes are always coalesced, and a set of clicks has only one coalesced
list (`Coalesced.ext`). So two runs from one state that leave the same clicks allocated leave the
same hole list, and a run that frees all that it allocated restores it.
-/

set_option autoImplicit false

namespace Soi.Pamiec

open Soi.Lib

section
variable [MmConfig] {mm : Mm} {m : List Extent}

/-- What a run keeps: the holes are coalesced, and the holes and the blocks together are the
holes `m` at the start. -/
structure Conserves (m : List Extent) (mm : Mm) (blocks : List Extent) : Prop where
  holds : ∃ T, mm.Holds ∅ T ∧ ∀ x, T x + cover blocks x = cover m x

/-- Each call keeps what the holes and the blocks are together. A block is carved from a hole, or it
goes back. -/
theorem Conserves.step {a b : Mm × List Extent} (hm : Territory (cover m))
    (h : Conserves m a.1 a.2) (hstep : BlockStep a b) : Conserves m b.1 b.2 := by
  obtain ⟨T, hholds, hsum⟩ := h
  have hT : Territory T := hm.mono fun x => by
    rw [← hsum x]
    omega
  cases hstep with
  | @allocMem mm mm' blocks clicks b hclicks hok hb hmproc =>
      -- `alloc_mem` swapped out nobody, so it only took the block off the holes.
      have hmoves : mm.Moves mm' ∅ := fun p hp => absurd (by rw [hmproc]) hp
      rcases Mm.allocMem_holds hT hholds hmoves hok with ⟨hb', -⟩ | ⟨T', hholds', hT'⟩
      · exact absurd hb' hb
      · refine ⟨T', hholds', ?_⟩
        intro x
        show T' x + cover (range b clicks :: blocks) x = cover m x
        have hsum : T x + cover blocks x = cover m x := hsum x
        rw [cover_cons, ← hsum, ← hT' x]
        omega
  | @freeMem mm mm' blocks base clicks hblock hok =>
      -- The block goes back to the holes.
      have herase := fun x => cover_erase hblock x
      refine ⟨fun x => T x + if x ∈ range base clicks then 1 else 0, ?_, ?_⟩
      · refine Mm.freeMem_holds (hm.mono fun x => ?_) hholds (fun x => rfl) hok
        rw [← hsum x, ← herase x]
        omega
      · intro x
        show T x + (if x ∈ range base clicks then 1 else 0)
          + cover (blocks.erase (range base clicks)) x = cover m x
        have hsum : T x + cover blocks x = cover m x := hsum x
        rw [← hsum, ← herase x]
        omega
  | @doWorstFit mm blocks m1i1 =>
      obtain ⟨w, hw⟩ := Mm.doWorstFit_eq mm m1i1
      rw [hw]
      exact ⟨T, hholds.congr rfl fun _ _ => rfl, hsum⟩

/-- The hole list after a run is the coalesced list of what the run left of `m`. -/
theorem Conserves.represents {blocks : List Extent} (h : Conserves m mm blocks) :
    ∃ m', mm.table.Represents m' ∧ Coalesced m' ∧ ∀ x, cover m' x + cover blocks x = cover m x := by
  obtain ⟨T, ⟨m', hrep, hm', hcover⟩, hsum⟩ := h
  refine ⟨m', hrep, hm', ?_⟩
  intro x
  have hcover := hcover x
  rw [Mm.held, Finset.sum_empty, Nat.add_zero] at hcover
  rw [hcover, hsum x]

/-- Two states of this kind with the same clicks in their blocks have the same hole list. -/
theorem Conserves.same_holes {mm₁ mm₂ : Mm} {b₁ b₂ : List Extent} (hm : Coalesced m)
    (h₁ : Conserves m mm₁ b₁) (h₂ : Conserves m mm₂ b₂)
    (hsame : ∀ x, (∃ e ∈ b₁, x ∈ e) ↔ ∃ e ∈ b₂, x ∈ e) :
    ∃ m', mm₁.table.Represents m' ∧ mm₂.table.Represents m' := by
  obtain ⟨m₁, hrep₁, hm₁, hsum₁⟩ := h₁.represents
  obtain ⟨m₂, hrep₂, hm₂, hsum₂⟩ := h₂.represents
  -- The clicks left to the holes are those of `m` that are not allocated.
  have heq : m₁ = m₂ := hm₁.ext hm₂ fun x => by
    have hle := hm.cover_le_one x
    have hs₁ := hsum₁ x
    have hs₂ := hsum₂ x
    have hiff : 0 < cover b₁ x ↔ 0 < cover b₂ x := by
      rw [cover_pos, cover_pos]
      exact hsame x
    omega
  exact ⟨m₁, hrep₁, heq ▸ hrep₂⟩

/-- Runs of allocations, frees and switches of the placement mode, from any state that satisfies
the invariant of the hole table. When all that was allocated is freed, the hole list is the one
at the start. Two runs that leave the same clicks allocated leave the same hole list. -/
theorem holes_of_blockRuns (mm : Mm) (hs fs : List (Fin nrHoles))
    (hvalid : mm.table.Valid mm.swapBase hs fs) :
    (∀ mm', BlockRun (mm, []) (mm', []) → mm'.table.Represents (mm.table.extents hs)) ∧
      ∀ mm₁ b₁ mm₂ b₂, BlockRun (mm, []) (mm₁, b₁) → BlockRun (mm, []) (mm₂, b₂) →
        (∀ x, (∃ e ∈ b₁, x ∈ e) ↔ ∃ e ∈ b₂, x ∈ e) →
        ∃ m, mm₁.table.Represents m ∧ mm₂.table.Represents m := by
  have hm := hvalid.coalesced
  have hrep := hvalid.represents
  have hterr : Territory (cover (mm.table.extents hs)) := by
    refine ⟨hm.cover_le_one, ?_, HoleTable.exists_uncovered hm⟩
    intro x hx
    obtain ⟨e, he, hxe⟩ := cover_pos.mp (Nat.pos_of_ne_zero hx)
    exact hxe.2.trans_le (hvalid.stop_le e he)
  have hstart : Conserves (mm.table.extents hs) mm [] :=
    ⟨cover (mm.table.extents hs), ⟨_, hrep, hm, fun x => rfl⟩, fun x => rfl⟩
  have hrun : ∀ {s}, BlockRun (mm, []) s → Conserves (mm.table.extents hs) s.1 s.2 := fun h =>
    Run.invariant (P := fun s => Conserves (mm.table.extents hs) s.1 s.2) h hstart
      fun _ _ => Conserves.step hterr
  constructor
  · intro mm' hback
    obtain ⟨m', hrep₀, hrep'⟩ := hstart.same_holes hm (hrun hback) fun x => Iff.rfl
    exact hrep.unique hrep₀ ▸ hrep'
  · intro mm₁ b₁ mm₂ b₂ h₁ h₂ hsame
    exact (hrun h₁).same_holes hm (hrun h₂) hsame

end

section
attribute [local instance] tinyConfig

/-- The small system gets three clicks, switches to worst fit, gets one click more, and frees the
two blocks in the order in which it got them. -/
def tinyRound : Mm :=
  match (do
    let (_, mm) ← tinyBoot.mm.allocMem 3
    let mm := mm.doWorstFit 1
    let (_, mm) ← mm.allocMem 1
    let mm ← mm.freeMem 4 3
    mm.freeMem 16 1 : Except Fault Mm) with
  | .ok mm => mm
  | .error _ => tinyMm

/-- Two blocks, worst fit in between, and both blocks back. -/
theorem tinyRound_run : BlockRun (tinyBoot.mm, []) (tinyRound, []) :=
  .head (@BlockStep.allocMem _ tinyBoot.mm _ [] 3 4 (by decide) rfl (by decide) rfl) <|
  .head (BlockStep.doWorstFit 1) <|
  .head (@BlockStep.allocMem _ _ _ _ 1 16 (by decide) rfl (by decide) rfl) <|
  .head (@BlockStep.freeMem _ _ _ _ 4 3 (by decide) rfl) <|
  .single (@BlockStep.freeMem _ _ tinyRound [range 16 1] 16 1 (by decide) rfl)

/-- The holes are the two chunks again. -/
theorem holes_of_blockRuns_tiny :
    ∃ m, tinyBoot.mm.table.Represents m ∧ tinyRound.table.Represents m := by
  obtain ⟨hinv, hgap⟩ := booted_inv tinyChunks_ok tinyBoot_booted
  obtain ⟨hs, fs, hvalid, -⟩ := hinv.valid hgap
  exact ⟨_, hvalid.represents, (holes_of_blockRuns tinyBoot.mm hs fs hvalid).1 tinyRound
    tinyRound_run⟩

end

end Soi.Pamiec
