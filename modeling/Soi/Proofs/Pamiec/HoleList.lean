import Soi.Proofs.Pamiec.MemInit

/-!
# `Soi.Proofs.Pamiec.HoleList`: the hole list in every reachable state

`HoleTable.Valid` is the representation invariant of the table: the two lists are finite and
share the entries, the holes are not empty, in ascending order and at least one click apart, and
none of them crosses `swap_base`. `Sys.Inv.valid` reads it off the invariant of the runs, with
the clicks that the holes cover. `valid_of_reaches` is the result about all runs from
`mem_init`.
-/

set_option autoImplicit false

namespace Soi.Pamiec

open Soi.Lib

/-- The representation invariant of the hole table: `hs` are the holes in list order, and `fs`
are the unused entries. -/
structure HoleTable.Valid {n : Nat} (t : HoleTable n) (swapBase : UInt32)
    (hs fs : List (Fin n)) : Prop where
  holes : Seg t.next t.holeHead hs none
  unused : Seg t.next t.freeSlots fs none
  /-- Each entry is on one of the two lists, once. -/
  perm : (hs ++ fs).Perm (List.finRange n)
  pos : ∀ e ∈ t.extents hs, 0 < e.len
  /-- The holes ascend, and no two of them overlap or touch. -/
  gap : (t.extents hs).Pairwise fun e f => e.stop < f.base
  /-- No hole goes across the end of the address space. -/
  stop_le : ∀ e ∈ t.extents hs, e.stop ≤ 2 ^ 32
  /-- A hole that starts below `swapBase` ends below it, so that it does not touch a hole of
  the swap area. -/
  below : ∀ e ∈ t.extents hs, e.base < swapBase.toNat → e.stop < swapBase.toNat

namespace HoleTable

variable {n : Nat} {t : HoleTable n} {swapBase : UInt32} {hs fs : List (Fin n)}

/-- The two lists of a valid table are disjoint, and together they are the table. -/
theorem Valid.slots (h : t.Valid swapBase hs fs) : t.Slots hs fs := ⟨h.holes, h.unused, h.perm⟩

/-- The holes of a valid table are not empty, and there is a gap between any two of them. -/
theorem Valid.coalesced (h : t.Valid swapBase hs fs) : Coalesced (t.extents hs) := ⟨h.pos, h.gap⟩

/-- A valid table represents the ranges of its holes. -/
theorem Valid.represents (h : t.Valid swapBase hs fs) : t.Represents (t.extents hs) :=
  ⟨hs, fs, h.slots, rfl⟩

end HoleTable

section
variable [MmConfig]

namespace Sys

/-- A click of the areas that is neither in a block nor in the image of a live process. -/
def Free (s : Sys) (x : Nat) : Prop :=
  (∃ a ∈ s.areas, x ∈ a) ∧ (∀ b ∈ s.blocks, x ∉ b) ∧ ∀ p ∈ s.live, x ∉ s.mm.image p

/-- The invariant of the runs contains the representation invariant of the table. The holes
cover nothing but free clicks, and all of them unless click 0 is in an area. -/
theorem Inv.valid {s : Sys} (h : s.Inv) (hgap : s.Gap) :
    ∃ hs fs, s.mm.table.Valid s.mm.swapBase hs fs ∧
      (∀ x, 0 < cover (s.mm.table.extents hs) x → s.Free x) ∧
      (cover s.areas 0 = 0 → ∀ x, s.Free x → 0 < cover (s.mm.table.extents hs) x) := by
  obtain ⟨⟨hterr, -⟩, T, ⟨m, ⟨hs, fs, hslots, rfl⟩, hm, hcover⟩, hdrops⟩ := h
  have hstop := (territory_of_drops hterr hdrops).holes_stop_le hm
    (Mm.cover_le_of_holds hcover)
  have hle : ∀ x, T x + cover s.blocks x ≤ cover s.areas x := hdrops.le
  refine ⟨hs, fs, ⟨hslots.holes, hslots.free, hslots.perm, hm.pos, hm.gap, hstop,
    ?_⟩, ?_, ?_⟩
  · intro e he hbase
    by_contra hcross
    -- Then the click below `swapBase` is in the hole, but it is in no area.
    have hx : s.mm.swapBase.toNat - 1 ∈ e := by
      simp only [Extent.mem_def, Extent.stop] at hcross ⊢
      omega
    have hpos := cover_pos_of_mem he hx
    have h0 := hgap (s.mm.swapBase.toNat - 1) (by omega)
    have := hcover (s.mm.swapBase.toNat - 1)
    have := hle (s.mm.swapBase.toNat - 1)
    omega
  · intro x hx
    have hsum := hcover x
    -- Nothing is counted twice, so what a hole covers is in no block and in no image.
    have hareas := hle x
    have hone := hterr.le_one x
    refine ⟨cover_pos.mp (by omega), ?_, ?_⟩
    · intro b hb hxb
      have := cover_pos_of_mem hb hxb
      omega
    · intro p hp hxp
      have := Mm.held_pos_of_mem hp hxp
      omega
  · intro h0 x hx
    obtain ⟨harea, hblocks, hlive⟩ := hx
    have hareas := cover_pos.mpr harea
    -- Without a click 0 nothing is lost, so what is in no block and in no image is in a hole.
    have hsum := congrFun (hdrops.eq_of_zero h0) x
    have hzero : cover s.blocks x = 0 := by
      by_contra hne
      obtain ⟨b, hb, hxb⟩ := cover_pos.mp (Nat.pos_of_ne_zero hne)
      exact hblocks b hb hxb
    have hheld : s.mm.held s.live x = 0 :=
      Finset.sum_eq_zero fun p hp => if_neg (hlive p hp)
    have hsum : T x + cover s.blocks x = cover s.areas x := hsum
    have := hcover x
    omega

/-- The swap area does not contain click 0. -/
theorem step_zero {s s' : Sys} (hinv : s.Inv) (hstep : Step s s') (h0 : cover s.areas 0 = 0) :
    cover s'.areas 0 = 0 := by
  cases hstep with
  | @swapOn fd offset size r mm' hok =>
      show cover (s.areas ++ s.mm.swapArea fd size) 0 = 0
      rw [cover_append, h0, Nat.zero_add, Mm.swapArea]
      split_ifs with hon
      · -- There is an area, so there was space for it, and it starts at `swap_base`.
        obtain ⟨hfd, -, hsize⟩ := hon
        have hpos := (hinv.areas.spare hfd (Mm.swapMaxsize_ne_zero hsize)).1
        rw [cover_cons, cover_nil, if_neg]
        rw [mem_range]
        omega
      · rfl
  | _ => exact h0

/-- Click 0 belongs to no area in any state of a run, when it belonged to none at the start. -/
theorem reaches_zero {s s' : Sys} (hinv : s.Inv) (hrun : Reaches s s')
    (h0 : cover s.areas 0 = 0) : cover s'.areas 0 = 0 :=
  (Run.invariant (P := fun s => s.Inv ∧ cover s.areas 0 = 0) hrun ⟨hinv, h0⟩
    fun _ _ h hstep => ⟨step_inv h.1 hstep, step_zero h.1 hstep h.2⟩).2

end Sys

/-- No chunk contains click 0. -/
theorem Booted.zero {chunks : List SysMem} {s : Sys} (h : Chunks chunks)
    (hboot : Booted chunks s) : cover s.areas 0 = 0 := by
  rw [hboot.areas_eq]
  by_contra hne
  obtain ⟨r, hr, hx⟩ := exists_chunk hne
  have hbase : r.base.toNat ≠ 0 := fun h0 => h.base_ne r hr (UInt32.toNat_inj.mp h0)
  omega

/-- `mem_init` over disjoint chunks returns. In each state that a run reaches from there, the
areas are the chunks as long as there is no swap file, and the chunks with the swap area when a call
of `swap_on` has opened it. The table satisfies its representation invariant, and the holes are
exactly the clicks of the areas that are not allocated. -/
theorem valid_of_reaches (chunks : List SysMem) (hchunks : Chunks chunks) :
    (∀ (mm₀ : Mm) (total : UInt32), ∃ r, mm₀.memInit (chunks.map some) total = .ok r) ∧
      ∀ s₀ s, Booted chunks s₀ → Sys.Reaches s₀ s →
        ((s.mm.swapFd < 0 ∧ s.areas = chunkAreas chunks) ∨
          ∃ size, s₀.Opened s size ∧ s.areas = chunkAreas chunks ++ s.openedArea size) ∧
        ∃ hs fs, s.mm.table.Valid s.mm.swapBase hs fs ∧
          ∀ x, (∃ e ∈ s.mm.table.extents hs, x ∈ e) ↔ s.Free x := by
  constructor
  · intro mm₀ total
    obtain ⟨mm, sums, m, hok, -⟩ := memInit_ok mm₀ hchunks total
    exact ⟨(mm, sums), hok⟩
  · intro s₀ s hboot hrun
    have h0 := Sys.reaches_zero (booted_inv hchunks hboot).1 hrun (hboot.zero hchunks)
    obtain ⟨hinv, hgap⟩ := inv_of_booted hchunks hboot hrun
    obtain ⟨hs, fs, hvalid, hsound, hcomplete⟩ := hinv.valid hgap
    refine ⟨hboot.areas_eq ▸ hboot.areasSince hrun, hs, fs, hvalid, ?_⟩
    intro x
    rw [← cover_pos]
    exact ⟨hsound x, hcomplete h0 x⟩

end

/-! ### A small system -/

/-- Two process slots, the second one for users, and so four table entries. -/
@[reducible] def tinyConfig : MmConfig := ⟨2, 1, 12, by decide, by decide⟩

section
attribute [local instance] tinyConfig

/-- The variables before `mem_init`. -/
def tinyMm : Mm where
  table := ⟨fun _ => ⟨none, 0, 0⟩, none, none⟩
  swapFd := -1
  swapOffset := 0
  swapBase := 0
  swapMaxsize := 0
  inQueue := none
  outswap := ⟨1, by decide⟩
  worstFit := 0
  mproc _ := ⟨⟨0, 0, 0⟩, ⟨0, 0, 0⟩, MpFlags.none, none⟩
  filePos := 0
  swapIo := []

/-- Four clicks from 4 on and six from 16 on. -/
def tinyChunks : List SysMem := [⟨4, 4, 10⟩, ⟨16, 6, 10⟩]

/-- The two chunks are disjoint and above click 0. -/
theorem tinyChunks_ok : Chunks tinyChunks := by
  refine ⟨by decide, by decide, by decide, ?_, by decide⟩
  simp only [tinyChunks, List.pairwise_cons, List.mem_singleton, forall_eq, mem_range]
  refine ⟨?_, by simp, List.Pairwise.nil⟩
  intro x hx
  simp only [UInt32.reduceToNat] at hx ⊢
  omega

/-- The system after `mem_init`. -/
def tinyBoot : Sys where
  mm := match tinyMm.memInit (tinyChunks.map some) 0 with
    | .ok r => r.1
    | .error _ => tinyMm
  live := ∅
  blocks := []
  areas := tinyChunks.map fun r => range r.base r.size

/-- The state is the one that `mem_init` returns. -/
theorem tinyBoot_booted : Booted tinyChunks tinyBoot :=
  ⟨tinyMm, 0, (10, 10), rfl, rfl, rfl, rfl, rfl, rfl⟩

/-- The system after `alloc_mem` of five clicks, which do not fit into the first hole. -/
def tinyNext : Sys :=
  { tinyBoot with
    mm := match tinyBoot.mm.allocMem 5 with
      | .ok r => r.2
      | .error _ => tinyBoot.mm
    blocks := [range 16 5] }

/-- One call of `alloc_mem`. -/
theorem tinyNext_reached : Sys.Reaches tinyBoot tinyNext :=
  .single (@Sys.Step.allocMem _ tinyBoot 5 16 _ rfl fun _ h => absurd rfl h)

/-- The table after this call is valid, and its holes are what is free. -/
theorem valid_of_reaches_tiny :
    ∃ hs fs, tinyNext.mm.table.Valid tinyNext.mm.swapBase hs fs ∧
      ∀ x, (∃ e ∈ tinyNext.mm.table.extents hs, x ∈ e) ↔ tinyNext.Free x :=
  ((valid_of_reaches tinyChunks tinyChunks_ok).2 tinyBoot tinyNext tinyBoot_booted
    tinyNext_reached).2

end

end Soi.Pamiec
