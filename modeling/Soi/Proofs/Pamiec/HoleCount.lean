import Soi.Proofs.Pamiec.HoleList

/-!
# `Soi.Proofs.Pamiec.HoleCount`: how many holes there can be

What ends a hole is the start of an allocated block, the start of an image, or the end of an
area. The holes end at different places, so there are at most as many as these. Then the
table cannot be full while few blocks are allocated, and `free_mem` does not panic.
-/

set_option autoImplicit false

namespace Soi.Pamiec

open Soi.Lib

/-- An extent that contains the end of a hole, but not its last click, starts there. -/
theorem base_eq_of_mem_stop {e f : Extent} (hpos : 0 < e.len) (hf : e.stop ∈ f)
    (hlast : e.stop - 1 ∉ f) : f.base = e.stop := by
  simp only [Extent.mem_def, Extent.stop] at hf hlast ⊢
  omega

/-- The holes end at different places. -/
theorem nodup_stops {m : List Extent} (hm : Coalesced m) : (m.map Extent.stop).Nodup := by
  refine List.pairwise_map.mpr (hm.gap.imp_of_mem ?_)
  intro e f _ hf hlt
  have hpos := hm.pos f hf
  simp only [Extent.stop] at hlt ⊢
  omega

section
variable [MmConfig] {s : Sys} {m : List Extent}

namespace Sys

/-- The number of allocated blocks that are not empty: the blocks of the callers and the images
of the live processes. -/
def blockCount (s : Sys) : Nat :=
  (s.blocks.filter fun e => 0 < e.len).length + (s.live.filter fun p => 0 < (s.mm.image p).len).card

/-- A click in a block or in the image of a live process. -/
def Allocated (s : Sys) (x : Nat) : Prop :=
  (∃ b ∈ s.blocks, x ∈ b) ∨ ∃ p ∈ s.live, x ∈ s.mm.image p

/-- What a hole can end at. -/
def barriers (s : Sys) : Finset Nat :=
  ((s.blocks.filter fun e => 0 < e.len).map Extent.base).toFinset ∪
    (s.live.filter fun p => 0 < (s.mm.image p).len).image (fun p => (s.mm.image p).base) ∪
    (s.areas.map Extent.stop).toFinset

/-- There is at most one barrier for each block that is not empty, for each image, and for each
area. -/
theorem card_barriers_le (s : Sys) : s.barriers.card ≤ s.blockCount + s.areas.length := by
  have hblocks := List.toFinset_card_le ((s.blocks.filter fun e => 0 < e.len).map Extent.base)
  have hareas := List.toFinset_card_le (s.areas.map Extent.stop)
  have himages := Finset.card_image_le (s := s.live.filter fun p => 0 < (s.mm.image p).len)
    (f := fun p => (s.mm.image p).base)
  rw [List.length_map] at hblocks hareas
  refine (Finset.card_union_le _ _).trans (Nat.add_le_add ?_ hareas)
  exact (Finset.card_union_le _ _).trans (Nat.add_le_add hblocks himages)

/-- Each hole ends at a barrier. -/
theorem stop_mem_barriers (hinv : s.Inv) (hrep : s.mm.table.Represents m) {e : Extent}
    (he : e ∈ m) : e.stop ∈ s.barriers := by
  obtain ⟨⟨hterr, -⟩, T, ⟨m', hrep', hm, hcover⟩, hdrops⟩ := hinv
  obtain rfl := hrep.unique hrep'
  obtain ⟨lost, hlost, hsum⟩ := hdrops
  have hpos := hm.pos e he
  have hlast : e.stop - 1 ∈ e := by
    simp only [Extent.mem_def, Extent.stop]
    omega
  -- The last click of the hole belongs to nothing else.
  have hm₁ := cover_pos_of_mem he hlast
  have hsum₁ : T (e.stop - 1) + cover s.blocks (e.stop - 1) + cover lost (e.stop - 1)
      = cover s.areas (e.stop - 1) := hsum (e.stop - 1)
  have hcover₁ := hcover (e.stop - 1)
  have hone := hterr.le_one (e.stop - 1)
  simp only [barriers, Finset.mem_union, List.mem_toFinset, List.mem_map, List.mem_filter,
    Finset.mem_image, Finset.mem_filter, decide_eq_true_eq]
  by_cases harea : cover s.areas e.stop = 0
  · -- The hole ends where its area ends.
    obtain ⟨a, ha, hxa⟩ := cover_pos.mp (show 0 < cover s.areas (e.stop - 1) by omega)
    have hout := notMem_of_cover_eq_zero harea ha
    refine Or.inr ⟨a, ha, ?_⟩
    simp only [Extent.mem_def, Extent.stop] at hxa hout hlast ⊢
    omega
  · have hstop := hm.cover_stop he
    have hsum₂ : T e.stop + cover s.blocks e.stop + cover lost e.stop = cover s.areas e.stop :=
      hsum e.stop
    have hcover₂ := hcover e.stop
    by_cases hblock : cover s.blocks e.stop = 0
    · by_cases hheld : s.mm.held s.live e.stop = 0
      · -- A lost block starts at 0, and it would contain the hole.
        obtain ⟨l, hl, hxl⟩ := cover_pos.mp (show 0 < cover lost e.stop by omega)
        obtain ⟨hbase, -⟩ := hlost l hl
        have hlast' : e.stop - 1 ∈ l := by
          simp only [Extent.mem_def, Extent.stop] at hxl ⊢
          omega
        have := cover_pos_of_mem hl hlast'
        omega
      · -- An image starts where the hole ends, since the click before is the hole's.
        obtain ⟨p, hp, hxp⟩ := Mm.exists_of_held_ne_zero hheld
        refine Or.inl (Or.inr ⟨p, ⟨hp, ?_⟩, base_eq_of_mem_stop hpos hxp ?_⟩)
        · simp only [Extent.mem_def] at hxp
          omega
        · intro hx
          have := Mm.held_pos_of_mem hp hx
          omega
    · -- A block starts there, for the same reason.
      obtain ⟨b, hb, hxb⟩ := cover_pos.mp (Nat.pos_of_ne_zero hblock)
      refine Or.inl (Or.inl ⟨b, ⟨hb, ?_⟩, base_eq_of_mem_stop hpos hxb ?_⟩)
      · simp only [Extent.mem_def] at hxb
        omega
      · intro hx
        have := cover_pos_of_mem hb hx
        omega

/-- There are at most as many holes as non-empty blocks and areas. -/
theorem holes_le (hinv : s.Inv) (hrep : s.mm.table.Represents m) :
    m.length ≤ s.blockCount + s.areas.length := by
  have hm : Coalesced m := by
    obtain ⟨-, T, ⟨m', hrep', hm, -⟩, -⟩ := hinv
    exact hrep.unique hrep' ▸ hm
  have hsub : (m.map Extent.stop).toFinset ⊆ s.barriers := by
    intro x hx
    obtain ⟨e, he, rfl⟩ := List.mem_map.mp (List.mem_toFinset.mp hx)
    exact stop_mem_barriers hinv hrep he
  -- As many places as holes, all of them barriers.
  have hcard := List.toFinset_card_of_nodup (nodup_stops hm)
  rw [List.length_map] at hcard
  rw [← hcard]
  exact (Finset.card_le_card hsub).trans (card_barriers_le s)

/-- With an unused entry, `free_mem` of an allocated range returns. -/
theorem freeMem_returns (hinv : s.Inv) (hrep : s.mm.table.Represents m) (hlt : m.length < nrHoles)
    {base clicks : UInt32} (halloc : ∀ x ∈ range base clicks, s.Allocated x) :
    ∃ mm', s.mm.freeMem base clicks = .ok mm' := by
  obtain ⟨⟨hterr, -⟩, T, ⟨m', hrep', hm, hcover⟩, hdrops⟩ := hinv
  obtain rfl := hrep.unique hrep'
  have hle : ∀ x, cover (range base clicks :: m) x ≤ cover s.areas x := by
    intro x
    have hsum : T x + cover s.blocks x ≤ cover s.areas x := hdrops.le x
    have := hcover x
    rw [cover_cons]
    split_ifs with hx
    · -- An allocated click is in an area, and the holes do not cover it.
      rcases halloc x hx with ⟨b, hb, hxb⟩ | ⟨p, hp, hxp⟩
      · have := cover_pos_of_mem hb hxb
        omega
      · have := Mm.held_pos_of_mem hp hxp
        omega
    · omega
  rcases HoleTable.freeMem_cases hterr hrep hm hle with ⟨t', m', hok, -⟩ | ⟨hfull, -⟩
  · refine ⟨{ s.mm with table := t' }, ?_⟩
    rw [Mm.freeMem, hok]
    rfl
  · omega

end Sys

/-- In each state that a run from `mem_init` reaches, the number of holes is at most the number
of non-empty blocks and areas. When this is less than the number of entries there is an unused
entry, and `free_mem` of an allocated range does not panic. -/
theorem holes_le_of_reaches (chunks : List SysMem) (hchunks : Chunks chunks) (s₀ s : Sys)
    (hboot : Booted chunks s₀) (hrun : Sys.Reaches s₀ s) :
    (∃ hs fs, s.mm.table.Slots hs fs ∧ hs.length ≤ s.blockCount + s.areas.length) ∧
      (s.areas = chunkAreas chunks ∨
        ∃ n, s.areas = chunkAreas chunks ++ [range s.mm.swapBase n]) ∧
      (s.blockCount + s.areas.length < nrHoles →
        s.mm.table.freeSlots ≠ none ∧
        ∀ base clicks, (∀ x ∈ range base clicks, s.Allocated x) →
          ∃ mm', s.mm.freeMem base clicks = .ok mm') := by
  have hinv := (inv_of_booted hchunks hboot hrun).1
  obtain ⟨T, ⟨m, hrep, -, -⟩, -⟩ := hinv.ledger
  have hcount := Sys.holes_le hinv hrep
  refine ⟨?_, ?_, fun hfew => ⟨?_, ?_⟩⟩
  · obtain ⟨hs, fs, hslots, rfl⟩ := hrep
    refine ⟨hs, fs, hslots, ?_⟩
    rwa [HoleTable.extents, List.length_map] at hcount
  · exact hboot.areas_eq ▸ (hboot.areasSince hrun).eq_or
  · rw [Ne, hrep.freeSlots_eq_none]
    omega
  · intro base clicks halloc
    exact Sys.freeMem_returns hinv hrep (by omega) halloc

end

section
attribute [local instance] tinyConfig

/-- One block and two areas, and three clicks of the block can be freed. -/
theorem holes_le_of_reaches_tiny :
    (∃ hs fs, tinyNext.mm.table.Slots hs fs ∧ hs.length ≤ 1 + 2) ∧
      ∃ mm', tinyNext.mm.freeMem 17 3 = .ok mm' := by
  obtain ⟨hholes, -, hfree⟩ := holes_le_of_reaches tinyChunks tinyChunks_ok tinyBoot tinyNext
    tinyBoot_booted tinyNext_reached
  refine ⟨hholes, (hfree (by decide)).2 17 3 fun x hx => Or.inl ⟨range 16 5, ?_, ?_⟩⟩
  · exact List.mem_singleton.mpr rfl
  · rw [mem_range] at hx ⊢
    simp only [UInt32.reduceToNat] at hx ⊢
    omega

end

end Soi.Pamiec
