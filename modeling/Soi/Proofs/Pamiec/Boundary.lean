import Mathlib.Data.Fintype.Basic
import Soi.Proofs.Pamiec.HoleList

/-!
# `Soi.Proofs.Pamiec.Boundary`: which blocks `alloc_mem` carves out of the swap area

Memory is below `swap_base`, and the holes at or above it stand for space in the swap file.
`CarvesBelow` states that `alloc_mem` respects the boundary. First fit does, since it looks at no
hole at or above `swap_base`. Worst fit takes the first hole of all as its first maximum and
compares the address of the following holes only. `carvesBelow_iff` is the exact condition:
worst fit crosses the boundary when no hole is below it and the first hole is big enough.

A process that is swapped out leaves a hole below the boundary behind, unless its image is
empty. So what is first on the list when `alloc_mem` is called decides
(`SwapsOut.same_or_below`).
-/

set_option autoImplicit false

namespace Soi.Pamiec

open Soi.Lib

section
variable [MmConfig] {mm mm' : Mm} {hs fs : List (Fin nrHoles)} {clicks : UInt32}

namespace Mm

/-- The processes that `swap_out` may move. -/
def candidates (mm : Mm) : Finset (Fin nrProcs) :=
  Finset.univ.filter fun p => (mm.mproc p).mpFlags.swappable

/-- The processes that can be swapped out, by their flags. -/
theorem mem_candidates {p : Fin nrProcs} :
    p ∈ mm.candidates ↔ (mm.mproc p).mpFlags.swappable := by
  simp [candidates]

/-- `alloc_mem` takes its block out of memory. When it returns a block, then after it swapped
out some processes the block was in a hole that starts below `swap_base`, the block ends there
too, and the holes at or above `swap_base` are the same before and after carving. -/
def CarvesBelow (mm : Mm) (clicks : UInt32) : Prop :=
  ∀ b mm', mm.allocMem clicks = .ok (b, mm') → b ≠ noMem →
    ∃ mm₁ m₁ m', SwapsOut mm mm₁ ∧ mm₁.table.Represents m₁ ∧ mm'.table.Represents m' ∧
      (∃ e ∈ m₁, e.base < mm.swapBase.toNat ∧ ∀ x ∈ range b clicks, x ∈ e) ∧
      b.toNat + clicks.toNat ≤ mm.swapBase.toNat ∧
      m'.filter (fun e => mm.swapBase.toNat ≤ e.base)
        = m₁.filter fun e => mm.swapBase.toNat ≤ e.base

/-- A hole table that satisfies its representation invariant, with the processes that `swap_out`
may move. Their images are in memory, disjoint from each other and from the holes. -/
structure Tidy (mm : Mm) (hs fs : List (Fin nrHoles)) : Prop where
  valid : mm.table.Valid mm.swapBase hs fs
  apart : mm.Apart mm.candidates (mm.table.extents hs)
  resident : ∀ p ∈ mm.candidates, ∀ x ∈ mm.image p, x + 1 < mm.swapBase.toNat

/-- What is known about the clicks of a tidy state. -/
structure Bounded (swapBase : UInt32) (T : Nat → Nat) : Prop where
  territory : Territory T
  gap : ∀ x, x + 1 = swapBase.toNat → T x = 0

/-- In a tidy state no hole and no candidate has the click below the swap area, and the two are a
territory. -/
theorem Tidy.bounded (h : mm.Tidy hs fs) : Bounded mm.swapBase fun x =>
    cover (mm.table.extents hs) x + mm.held mm.candidates x := by
  have hm := h.valid.coalesced
  have hheld : ∀ x, mm.swapBase.toNat ≤ x + 1 → mm.held mm.candidates x = 0 := by
    intro x hx
    by_contra hne
    obtain ⟨p, hp, hxp⟩ := exists_of_held_ne_zero hne
    have := h.resident p hp x hxp
    omega
  have hgap : ∀ x, x + 1 = mm.swapBase.toNat → cover (mm.table.extents hs) x = 0 := by
    intro x hx
    by_contra hne
    obtain ⟨e, he, hxe⟩ := cover_pos.mp (Nat.pos_of_ne_zero hne)
    have := h.valid.below e he
    simp only [Extent.mem_def, Extent.stop] at hxe this
    omega
  have hbase := mm.swapBase.toNat_lt
  refine ⟨⟨h.apart.le_one hm, ?_, ?_⟩, ?_⟩
  · intro x hx
    by_contra hbig
    have hcover : cover (mm.table.extents hs) x ≠ 0 := by
      have := hheld x (by omega)
      omega
    obtain ⟨e, he, hxe⟩ := cover_pos.mp (Nat.pos_of_ne_zero hcover)
    have := h.valid.stop_le e he
    simp only [Extent.mem_def, Extent.stop] at hxe this
    omega
  · by_cases h0 : mm.swapBase.toNat = 0
    · -- No memory below the boundary: the images are empty.
      obtain ⟨x, hx, hcover⟩ := HoleTable.exists_uncovered hm
      exact ⟨x, hx, by simp only [hcover, hheld x (by omega)]⟩
    · refine ⟨mm.swapBase.toNat - 1, by omega, ?_⟩
      simp only [hgap _ (show mm.swapBase.toNat - 1 + 1 = _ by omega),
        hheld _ (show mm.swapBase.toNat ≤ mm.swapBase.toNat - 1 + 1 by omega)]
  · intro x hx
    simp only [hgap x hx, hheld x (by omega)]

/-- What swapping out keeps, seen from the state `mm` at the start: the processes not moved yet
are where they were, and the holes are the same or one of them starts below the boundary. -/
structure SwapsBelow (mm a : Mm) (T : Nat → Nat) (m : List Extent) : Prop where
  holds : a.Holds mm.candidates T
  bound : a.swapBase = mm.swapBase
  mode : a.worstFit = mm.worstFit
  stays : ∀ p, (a.mproc p).mpFlags.swappable → a.mproc p = mm.mproc p
  below : a.table.Represents m ∨
    ∃ m', a.table.Represents m' ∧ ∃ e ∈ m', e.base < mm.swapBase.toNat

/-- One more process is swapped out. A non-empty image leaves a hole below the boundary, and an
empty one changes nothing. -/
theorem SwapsBelow.step {a b : Mm} {T : Nat → Nat} {m : List Extent} (hT : Territory T)
    (hres : ∀ p ∈ mm.candidates, ∀ x ∈ mm.image p, x + 1 < mm.swapBase.toNat)
    (h : SwapsBelow mm a T m) {i : Fin nrProcs} (hok : a.swapOutProc i = .ok (some b)) :
    SwapsBelow mm b T m := by
  obtain ⟨⟨m₀, hrep₀, hm₀, hcover₀⟩, hbound, hmode, hstays, hbelow⟩ := h
  have hcand := (swapOutProc_ok hok).1
  have hi : i ∈ mm.candidates := by
    rw [mem_candidates, ← hstays i hcand]
    exact hcand
  have hholds' := swapOutProc_holds hT ⟨m₀, hrep₀, hm₀, hcover₀⟩ hi hok
  obtain ⟨newBase, table, rfl, -, -, hplace⟩ := swapOutProc_place hT hrep₀ hm₀
    (fun x => by rw [← hcover₀ x]; omega) hok
  refine ⟨hholds', hbound, hmode, ?_, ?_⟩
  · intro p hp
    by_cases hpi : p = i
    · rw [hpi, mproc_swappedOut_self] at hp
      simp [MpFlags.swappable, MpFlags.avoided] at hp
    · rw [mproc_swappedOut_of_ne _ hpi] at hp ⊢
      exact hstays p hp
  · obtain ⟨m', hrep', hm', hcover'⟩ := hholds'
    have hmove := held_move a (a.swappedOut i newBase table) hi
      fun p _ hne => image_swappedOut_of_ne a hne newBase table
    rw [image_swappedOut_self] at hmove
    by_cases hsize : (a.mproc i).imageSize = 0
    · -- The new place and the old one are empty, so the holes stay the same.
      have hempty : ∀ (base : UInt32) (x : Nat), x ∉ range base (a.mproc i).imageSize := by
        intro base x
        rw [hsize, mem_range, UInt32.toNat_zero]
        omega
      have hsame : m' = m₀ := hm'.ext hm₀ fun x => by
        have hmove := hmove x
        rw [image, if_neg (hempty _ x), if_neg (hempty _ x)] at hmove
        have h₁ := hcover' x
        have h₂ := hcover₀ x
        omega
      rcases hbelow with hrep | ⟨m₁, hrep₁, e, he, hbase⟩
      · exact Or.inl (hrep.unique hrep₀ ▸ hsame ▸ hrep')
      · exact Or.inr ⟨m', hrep', e, hsame ▸ hrep₁.unique hrep₀ ▸ he, hbase⟩
    · -- The old place is a hole now.
      have hpos : 0 < (a.mproc i).imageSize.toNat :=
        Nat.pos_of_ne_zero fun h0 => hsize (UInt32.toNat_inj.mp h0)
      set x := (a.image i).base with hx
      have hold : x ∈ a.image i := by
        show (a.image i).base ≤ x ∧ x < (a.image i).base + (a.mproc i).imageSize.toNat
        omega
      have hheld := held_pos_of_mem hi hold
      have hone := hT.le_one x
      have hsum := hcover₀ x
      have hnew : x ∉ range newBase (a.mproc i).imageSize := fun hin => by
        have := hplace x hin
        omega
      have hmove := hmove x
      rw [if_pos hold, if_neg hnew] at hmove
      have hsum' := hcover' x
      obtain ⟨e, he, hxe⟩ := cover_pos.mp (show 0 < cover m' x by omega)
      refine Or.inr ⟨m', hrep', e, he, ?_⟩
      have himage : a.image i = mm.image i := by rw [image, image, hstays i hcand]
      have := hres i hi x (himage ▸ hold)
      simp only [Extent.mem_def] at hxe
      omega

/-- Any number of processes are swapped out. -/
theorem SwapsOut.same_or_below {T : Nat → Nat} {m : List Extent} (hT : Territory T)
    (hres : ∀ p ∈ mm.candidates, ∀ x ∈ mm.image p, x + 1 < mm.swapBase.toNat)
    (h0 : SwapsBelow mm mm T m) (h : SwapsOut mm mm') : SwapsBelow mm mm' T m := by
  refine Run.invariant (P := fun a => SwapsBelow mm a T m) h h0 ?_
  intro a b ha hab
  obtain ⟨i, hproc⟩ := swapOutLoop_ok hab
  exact ha.step hT hres hproc

/-- Worst fit takes the first hole of all when it is at or above the boundary and big enough. -/
theorem allocMem_of_head {i : Fin nrHoles} (hslots : mm.table.Slots hs fs)
    (hm : Coalesced (mm.table.extents hs))
    (hstop : ∀ e ∈ mm.table.extents hs, e.stop ≤ 2 ^ 32) (hmode : mm.worstFit ≠ 0)
    (hhead : mm.table.holeHead = some i) (hbase : mm.swapBase ≤ (mm.table.hole i).hBase)
    (hlen : clicks ≤ (mm.table.hole i).hLen) :
    ∃ mm', mm.allocMem clicks = .ok ((mm.table.hole i).hBase, mm') := by
  cases hs with
  | nil =>
      have hnone : mm.table.holeHead = none := hslots.holes
      rw [hnone] at hhead
      cases hhead
  | cons a l =>
      obtain rfl : a = i := Option.some.inj (hslots.holes.1.symm.trans hhead)
      obtain ⟨t', -, hbite, -⟩ := HoleTable.bite_cases none
        (show mm.table.Slots ([] ++ a :: l) fs from hslots) hm (by simp) hlen (hstop _ (by simp))
      refine ⟨{ mm with table := t' }, ?_⟩
      obtain ⟨l₁, i, l₂, rest, hsplit, hrun, -, -, hplace⟩ :=
        HoleTable.worstFit_cons mm.swapBase clicks hslots
      -- The scan stops at once, and the first hole is its maximum.
      have hfirst : l₁ = [] ∧ i = a := by
        rcases hplace with ⟨hlow, -⟩ | ⟨hl₁, -, -⟩
        · have ha : a ∈ l₁ ++ i :: l₂ := by
            cases l₁ with
            | nil => exact List.mem_append_right _ ((List.cons.inj hsplit).1 ▸ List.mem_cons_self)
            | cons c l₁ => exact (List.cons.inj hsplit).1 ▸ List.mem_cons_self
          exact absurd (hlow a ha) (UInt32.not_lt.mpr hbase)
        · subst hl₁
          exact ⟨rfl, (List.cons.inj hsplit).1.symm⟩
      obtain ⟨rfl, rfl⟩ := hfirst
      rw [if_pos hlen] at hrun
      have hfit : mm.fit clicks = .ok (some (none, i)) := by
        rw [fit, if_neg hmode]
        exact hrun
      rw [allocMem, allocLoop, hfit]
      show (mm.table.bite none i clicks >>= _) = _
      rw [hbite]
      rfl

end Mm

/-- A reachable state is tidy when the processes that may be swapped out are in memory. -/
theorem Sys.Inv.tidy {s : Sys} (h : s.Inv) (hgap : s.Gap) (hcand : s.mm.candidates ⊆ s.live)
    (hres : ∀ p ∈ s.mm.candidates, ∀ x ∈ s.mm.image p, x + 1 < s.mm.swapBase.toNat) :
    ∃ hs fs, s.mm.Tidy hs fs := by
  obtain ⟨hs, fs, hvalid, -⟩ := h.valid hgap
  have hapart : s.mm.Apart s.live _ := .of_le_one (h.territory hvalid.represents).le_one
  refine ⟨hs, fs, hvalid, ⟨?_, ?_⟩, hres⟩
  · intro p hp q hq
    exact hapart.images p (hcand hp) q (hcand hq)
  · intro p hp
    exact hapart.holes p (hcand hp)

/-- The hole that the scan chooses starts below the boundary, unless worst fit found the first
hole at or above it. Then swapping out left no hole behind, and `alloc_mem` started with this
hole on the list already. -/
theorem Mm.chosen_below {mm mm₁ : Mm} {T : Nat → Nat} {hs fs l₁ l₂ fs₁ : List (Fin nrHoles)}
    {i : Fin nrHoles} {clicks : UInt32} (hslots : mm.table.Slots hs fs)
    (hbelow : SwapsBelow mm mm₁ T (mm.table.extents hs))
    (hslots₁ : mm₁.table.Slots (l₁ ++ i :: l₂) fs₁)
    (hm₁ : Coalesced (mm₁.table.extents (l₁ ++ i :: l₂)))
    (hplace : (mm₁.table.hole i).hBase < mm₁.swapBase ∨
      mm₁.worstFit ≠ 0 ∧ l₁ = [] ∧ mm₁.swapBase ≤ (mm₁.table.hole i).hBase)
    (hlen : clicks ≤ (mm₁.table.hole i).hLen) (hne : (mm₁.table.hole i).hBase ≠ noMem)
    (hgood : ¬ (mm.worstFit ≠ 0 ∧ ∃ i, mm.table.holeHead = some i ∧
      mm.swapBase ≤ (mm.table.hole i).hBase ∧ clicks ≤ (mm.table.hole i).hLen ∧
      (mm.table.hole i).hBase ≠ noMem)) :
    (mm₁.table.hole i).hBase < mm.swapBase := by
  rcases hplace with hi | ⟨hmode, rfl, hi⟩
  · rwa [hbelow.bound] at hi
  · exfalso
    rw [hbelow.bound, UInt32.le_iff_toNat_le] at hi
    rcases hbelow.below with hsame | ⟨m₂, hrep₂, e, he, hebase⟩
    · -- The first hole is above the boundary, so it was there at the start.
      have hlist : mm₁.table.extents (i :: l₂) = mm.table.extents hs :=
        HoleTable.Represents.unique ⟨_, _, hslots₁, rfl⟩ hsame
      cases hs with
      | nil => cases hlist
      | cons a l =>
          have hext := (List.cons.inj hlist).1
          have ha : (mm.table.hole a).hBase = (mm₁.table.hole i).hBase :=
            UInt32.toNat_inj.mp (congrArg Extent.base hext).symm
          have hla : (mm.table.hole a).hLen = (mm₁.table.hole i).hLen :=
            UInt32.toNat_inj.mp (congrArg Extent.len hext).symm
          refine hgood ⟨hbelow.mode ▸ hmode, a, hslots.holes.1, ?_, ?_, ?_⟩
          · rw [ha, UInt32.le_iff_toNat_le]
            exact hi
          · rw [hla]
            exact hlen
          · rw [ha]
            exact hne
    · -- A hole below the boundary would come before it.
      obtain rfl := hrep₂.unique ⟨_, _, hslots₁, rfl⟩
      rcases List.mem_cons.mp he with rfl | he
      · exact absurd hebase (Nat.not_lt.mpr hi)
      · have hlt := (List.pairwise_cons.mp hm₁.gap).1 e he
        simp only [Extent.stop, HoleTable.extent] at hlt
        omega

/-- `alloc_mem` respects the boundary exactly when it does not start in worst fit with a hole
list whose first hole is at or above the boundary and big enough. -/
theorem carvesBelow_iff (mm : Mm) (hs fs : List (Fin nrHoles)) (h : mm.Tidy hs fs)
    (clicks : UInt32) (hclicks : clicks ≠ 0) :
    mm.CarvesBelow clicks ↔
      ¬ (mm.worstFit ≠ 0 ∧ ∃ i, mm.table.holeHead = some i ∧
        mm.swapBase ≤ (mm.table.hole i).hBase ∧ clicks ≤ (mm.table.hole i).hLen ∧
        (mm.table.hole i).hBase ≠ noMem) := by
  have hslots := h.valid.slots
  have hm := h.valid.coalesced
  have hpos : 0 < clicks.toNat := Nat.pos_of_ne_zero fun h0 => hclicks (UInt32.toNat_inj.mp h0)
  constructor
  · rintro hcarves ⟨hmode, i, hhead, hbase, hlen, hne⟩
    obtain ⟨mm', hok⟩ := Mm.allocMem_of_head hslots hm h.valid.stop_le hmode hhead hbase hlen
    obtain ⟨-, -, -, -, -, -, -, hstop, -⟩ := hcarves _ _ hok hne
    rw [UInt32.le_iff_toNat_le] at hbase
    omega
  · intro hgood b mm' hok hb
    obtain ⟨hT, hgap⟩ := h.bounded
    obtain ⟨mm₁, hswaps, hcases⟩ := Mm.allocLoop_cases hok
    have hbelow := hswaps.same_or_below hT h.resident
      ⟨⟨_, ⟨hs, fs, hslots, rfl⟩, hm, fun x => rfl⟩, rfl, rfl, fun _ _ => rfl,
        Or.inl ⟨hs, fs, hslots, rfl⟩⟩
    obtain ⟨m₁, ⟨hs₁, fs₁, hslots₁, rfl⟩, hm₁, hcover₁⟩ := hbelow.holds
    have hcover₁ : ∀ x, cover (mm₁.table.extents hs₁) x + mm₁.held mm.candidates x
      = cover (mm.table.extents hs) x + mm.held mm.candidates x := hcover₁
    rcases hcases with ⟨prevPtr, hp, table, hfit, hbite, rfl⟩ | ⟨-, -, hb', -⟩
    · have hstop₁ := hT.holes_stop_le hm₁ fun x => by
        have := hcover₁ x
        omega
      obtain ⟨l₁, l₂, m', rfl, rfl, hlen, hplace, hrep', -, rfl, -⟩ :=
        Mm.carve_cases hslots₁ hm₁ hstop₁ hfit hbite
      have hi := Mm.chosen_below hslots hbelow hslots₁ hm₁ hplace hlen hb hgood
      have hbase := UInt32.lt_iff_toNat_lt.mp hi
      have hlen := UInt32.le_iff_toNat_le.mp hlen
      have hmem : mm₁.table.extent hp ∈ mm₁.table.extents (l₁ ++ hp :: l₂) := by simp
      -- The hole ends before the click below `swap_base`, which belongs to nobody.
      have hstop : (mm₁.table.extent hp).stop ≤ mm.swapBase.toNat - 1 := by
        refine stop_le_of_cover_eq_zero ?_ hmem (Nat.le_sub_one_of_lt hbase)
        have h₁ : cover (mm.table.extents hs) _ + mm.held mm.candidates _ = 0 :=
          hgap (mm.swapBase.toNat - 1) (by omega)
        have h₂ := hcover₁ (mm.swapBase.toNat - 1)
        omega
      refine ⟨mm₁, _, _, hswaps, ⟨_, _, hslots₁, rfl⟩, hrep',
        ⟨mm₁.table.extent hp, hmem, hbase, ?_⟩, ?_, ?_⟩
      · intro x hx
        rw [mem_range] at hx
        simp only [Extent.mem_def, HoleTable.extent]
        omega
      · simp only [Extent.stop, HoleTable.extent] at hstop
        omega
      · rw [HoleTable.extents_append, HoleTable.extents_cons]
        exact filter_dropFront (hpos.trans_le hlen) hlen (hstop.trans (Nat.sub_le _ 1))
    · exact absurd hb' hb

end

section
attribute [local instance] tinyConfig

/-- The small system with all memory allocated, eight clicks of swap, and worst fit on. -/
def tinyFull : Sys where
  mm :=
    match (do
      let (_, mm) ← tinyBoot.mm.allocMem 4
      let (_, mm) ← mm.allocMem 6
      let (_, mm) ← mm.swapOn 3 0 0x8000
      pure (mm.doWorstFit 1) : Except Fault Mm) with
    | .ok mm => mm
    | .error _ => tinyMm
  live := ∅
  blocks := [range 16 6, range 4 4]
  areas := tinyBoot.areas ++ [range 23 8]

/-- Two blocks, `swap_on` and `do_worst_fit`. -/
theorem tinyFull_reached : Sys.Reaches tinyBoot tinyFull :=
  .head (@Sys.Step.allocMem _ tinyBoot 4 4 _ rfl fun _ h => absurd rfl h) <|
  .head (@Sys.Step.allocMem _ _ 6 16 _ rfl fun _ h => absurd rfl h) <|
  .head (@Sys.Step.swapOn _ _ 3 0 0x8000 _ _ rfl) <|
  .single (@Sys.Step.doWorstFit _ _ 1)

/-- All memory is allocated, and worst fit takes the first click of the swap area for memory. -/
theorem allocMem_tinyFull : ∃ mm', tinyFull.mm.allocMem 1 = .ok (23, mm') := ⟨_, rfl⟩

/-- A state that the small system reaches is tidy when no process can be swapped out. -/
theorem tidy_of_tiny {s : Sys} (hrun : Sys.Reaches tinyBoot s) (hcand : s.mm.candidates = ∅) :
    ∃ hs fs, s.mm.Tidy hs fs := by
  obtain ⟨hinv, hgap⟩ := inv_of_booted tinyChunks_ok tinyBoot_booted hrun
  refine hinv.tidy hgap ?_ ?_
  · rw [hcand]
    exact Finset.empty_subset _
  · rw [hcand]
    intro p hp
    cases hp

/-- `alloc_mem` takes memory from the swap area in a state that is reached: worst fit is on, and the
first hole is the swap hole. -/
theorem not_carvesBelow_tinyFull :
    Sys.Reaches tinyBoot tinyFull ∧ (∃ hs fs, tinyFull.mm.Tidy hs fs) ∧
      ¬ tinyFull.mm.CarvesBelow 1 := by
  refine ⟨tinyFull_reached, tidy_of_tiny tinyFull_reached (by decide), ?_⟩
  intro hcarves
  obtain ⟨mm', hok⟩ := allocMem_tinyFull
  obtain ⟨-, -, -, -, -, -, -, hstop, -⟩ := hcarves 23 mm' hok (by decide)
  exact absurd hstop (by decide)

/-- The small system with four clicks allocated, so that there is a hole in memory, and swapping
on. -/
def tinyPart : Sys where
  mm :=
    match (do
      let (_, mm) ← tinyBoot.mm.allocMem 4
      let (_, mm) ← mm.swapOn 3 0 0x8000
      pure mm : Except Fault Mm) with
    | .ok mm => mm
    | .error _ => tinyMm
  live := ∅
  blocks := [range 4 4]
  areas := tinyBoot.areas ++ [range 23 8]

/-- One block and `swap_on`. -/
theorem tinyPart_reached : Sys.Reaches tinyBoot tinyPart :=
  .head (@Sys.Step.allocMem _ tinyBoot 4 4 _ rfl fun _ h => absurd rfl h) <|
  .single (@Sys.Step.swapOn _ _ 3 0 0x8000 _ _ rfl)

/-- Worst fit is on in this system too, and now the first hole is in memory. -/
def tinyWide : Sys := { tinyPart with mm := tinyPart.mm.doWorstFit 1 }

/-- The same with `do_worst_fit` behind it. -/
theorem tinyWide_reached : Sys.Reaches tinyBoot tinyWide :=
  tinyPart_reached.tail (@Sys.Step.doWorstFit _ tinyPart 1)

/-- The swap hole has eight clicks and is the largest one, but the block of five clicks comes from
the hole in memory. -/
theorem carvesBelow_iff_tiny :
    (∃ mm', tinyWide.mm.allocMem 5 = .ok (16, mm')) ∧ tinyWide.mm.CarvesBelow 5 := by
  obtain ⟨hs, fs, htidy⟩ := tidy_of_tiny tinyWide_reached (by decide)
  refine ⟨⟨_, rfl⟩, (carvesBelow_iff tinyWide.mm hs fs htidy 5 (by decide)).mpr ?_⟩
  rintro ⟨-, i, hhead, hbase, -⟩
  have hfirst : tinyWide.mm.table.holeHead = some ⟨1, by decide⟩ := rfl
  obtain rfl := Option.some.inj (hfirst.symm.trans hhead)
  exact absurd hbase (by decide)

end

end Soi.Pamiec
