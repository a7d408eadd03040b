import Soi.Proofs.Pamiec.HoleList
import Soi.Proofs.Pamiec.SwapScan

/-!
# `Soi.Proofs.Pamiec.Modes`: what first fit and worst fit pick

In a `Quiet` state all holes are in memory and no process can be swapped out, so `alloc_mem` is one
pass over the hole list. `fit_picks` is this pass: in either mode it finds the hole of `Picks`, or
all holes are too small. `alloc_by_mode` is the result. The hole gets smaller at its front, the
other ones stay, and whether the request fails does not depend on the mode.
-/

set_option autoImplicit false

namespace Soi.Pamiec

open Soi.Lib

namespace Mm

section
variable [MmConfig] {mm mm' : Mm} {hs fs : List (Fin nrHoles)} {clicks : UInt32}

/-- A well-formed hole table of memory at addresses above 0, and no process that `swap_out` may
move. `outswap` is the slot of a user process, as its initial value is. -/
structure Quiet (mm : Mm) (hs fs : List (Fin nrHoles)) : Prop where
  valid : mm.table.Valid mm.swapBase hs fs
  base_ne : ∀ i ∈ hs, (mm.table.hole i).hBase ≠ noMem
  memory : ∀ i ∈ hs, (mm.table.hole i).hBase < mm.swapBase
  stays : ∀ p, (mm.mproc p).mpFlags.swappable = false
  outswap : lowUser ≤ mm.outswap.val

/-- The hole that the placement mode asks for. -/
structure Picks (mm : Mm) (hs : List (Fin nrHoles)) (clicks : UInt32) (i : Fin nrHoles) :
    Prop where
  mem : i ∈ hs
  fits : clicks ≤ (mm.table.hole i).hLen
  /-- First fit: the lowest one that is big enough. -/
  first : mm.worstFit = 0 → ∀ j ∈ hs, clicks ≤ (mm.table.hole j).hLen →
    (mm.table.hole i).hBase ≤ (mm.table.hole j).hBase
  /-- Worst fit: the lowest one of the biggest. -/
  worst : mm.worstFit ≠ 0 → ∀ j ∈ hs, (mm.table.hole j).hLen ≤ (mm.table.hole i).hLen ∧
    ((mm.table.hole j).hLen = (mm.table.hole i).hLen →
      (mm.table.hole i).hBase ≤ (mm.table.hole j).hBase)

/-- `alloc_mem` took the first `clicks` of the hole `i`. The other holes keep base and length, and
`i` is gone when nothing is left of it. -/
structure Carves (mm : Mm) (hs : List (Fin nrHoles)) (clicks : UInt32) (i : Fin nrHoles)
    (b : UInt32) (mm' : Mm) : Prop where
  base : b = (mm.table.hole i).hBase
  frame : mm' = { mm with table := mm'.table }
  holes : ∃ l₁ l₂, hs = l₁ ++ i :: l₂ ∧ mm'.table.Represents
    (mm.table.extents l₁ ++ (mm.table.extent i).dropFront clicks.toNat ++ mm.table.extents l₂)

/-- The holes behind a hole are above it. -/
theorem hBase_le_of_split {l₁ l₂ : List (Fin nrHoles)} {i j : Fin nrHoles}
    (hgap : (mm.table.extents (l₁ ++ i :: l₂)).Pairwise fun e f => e.stop < f.base)
    (hj : j ∈ l₁ ++ i :: l₂) (hj₁ : j ∉ l₁) :
    (mm.table.hole i).hBase ≤ (mm.table.hole j).hBase := by
  rcases List.mem_cons.mp ((List.mem_append.mp hj).resolve_left hj₁) with rfl | hj₂
  · exact UInt32.le_refl _
  · rw [HoleTable.extents_append, HoleTable.extents_cons] at hgap
    have hlt := (List.pairwise_cons.mp (List.pairwise_append.mp hgap).2.1).1 _
      (List.mem_map_of_mem hj₂)
    simp only [Extent.stop, HoleTable.extent] at hlt
    rw [UInt32.le_iff_toNat_le]
    omega

/-- A hole with smaller ones before it and no bigger ones behind it is the lowest of the biggest. -/
theorem lowest_of_biggest {l₁ l₂ : List (Fin nrHoles)} {i : Fin nrHoles}
    (hgap : (mm.table.extents (l₁ ++ i :: l₂)).Pairwise fun e f => e.stop < f.base)
    (h₁ : ∀ j ∈ l₁, (mm.table.hole j).hLen < (mm.table.hole i).hLen)
    (h₂ : ∀ j ∈ l₂, (mm.table.hole j).hLen ≤ (mm.table.hole i).hLen) :
    ∀ j ∈ l₁ ++ i :: l₂, (mm.table.hole j).hLen ≤ (mm.table.hole i).hLen ∧
      ((mm.table.hole j).hLen = (mm.table.hole i).hLen →
        (mm.table.hole i).hBase ≤ (mm.table.hole j).hBase) := by
  intro j hj
  constructor
  · rcases List.mem_append.mp hj with hj | hj
    · exact UInt32.le_of_lt (h₁ j hj)
    · rcases List.mem_cons.mp hj with rfl | hj
      · exact UInt32.le_refl _
      · exact h₂ j hj
  · intro heq
    refine hBase_le_of_split hgap hj fun hj₁ => ?_
    exact absurd heq (UInt32.ne_of_lt (h₁ j hj₁))

/-- One pass over the holes of memory, in either mode. -/
theorem fit_picks (h : mm.Quiet hs fs) (clicks : UInt32) :
    (∃ prevPtr l₁ i l₂, hs = l₁ ++ i :: l₂ ∧ mm.fit clicks = .ok (some (prevPtr, i)) ∧
        (∀ a ∈ l₁.getLast?, prevPtr = some a) ∧ mm.Picks hs clicks i) ∨
      (mm.fit clicks = .ok none ∧ ∀ i ∈ hs, (mm.table.hole i).hLen < clicks) := by
  have hslots := h.valid.slots
  have hgap := h.valid.gap
  by_cases hmode : mm.worstFit = 0
  · have hfit : mm.fit clicks
        = mm.table.firstFit mm.swapBase clicks nrHoles none mm.table.holeHead := if_pos hmode
    rw [hfit]
    rcases HoleTable.firstFit_loop mm.swapBase clicks none hslots.holes hslots.length_le with
      ⟨l₁, i, l₂, rfl, hrun, -, hlen, hsmall⟩ | ⟨l₁, l₂, rfl, hrun, hsmall, hstop⟩
    · refine Or.inl ⟨_, l₁, i, l₂, rfl, hrun, fun a ha => by simp_all, by simp, hlen, ?_,
        fun hworst => absurd hmode hworst⟩
      intro _ j hj hjlen
      refine hBase_le_of_split hgap hj fun hj₁ => ?_
      exact UInt32.not_lt.mpr hjlen (hsmall j hj₁).2
    · -- No hole is at the boundary, so the scan came to the end.
      cases l₂ with
      | nil => exact Or.inr ⟨hrun, by simpa using hsmall⟩
      | cons a l₂ => exact absurd (h.memory a (by simp)) (UInt32.not_lt.mpr (hstop a rfl))
  · have hfit : mm.fit clicks = mm.table.worstFit mm.swapBase clicks := if_neg hmode
    rw [hfit]
    cases hs with
    | nil =>
        have hnone : mm.table.holeHead = none := hslots.holes
        refine Or.inr ⟨?_, by simp⟩
        rw [HoleTable.worstFit, hnone]
        rfl
    | cons a l =>
        obtain ⟨l₁, i, l₂, rest, hsplit, hrun, h₁, h₂, hplace⟩ :=
          HoleTable.worstFit_cons mm.swapBase clicks hslots
        have hrest : rest = [] := by
          rcases hplace with ⟨-, hstop⟩ | ⟨-, -, hi⟩
          · cases rest with
            | nil => rfl
            | cons b rest =>
                exact absurd (h.memory b (by simp [hsplit])) (UInt32.not_lt.mpr (hstop b rfl))
          · exact absurd (h.memory i (by simp [hsplit])) (UInt32.not_lt.mpr hi)
        rw [hrest, List.append_nil] at hsplit
        rw [hsplit] at hgap ⊢
        have hbest := lowest_of_biggest hgap h₁ h₂
        by_cases hlen : clicks ≤ (mm.table.hole i).hLen
        · rw [if_pos hlen] at hrun
          exact Or.inl ⟨_, l₁, i, l₂, rfl, hrun, fun b hb => hb, by simp, hlen,
            fun hfirst => absurd hfirst hmode, fun _ => hbest⟩
        · rw [if_neg hlen] at hrun
          refine Or.inr ⟨hrun, ?_⟩
          intro j hj
          exact UInt32.lt_of_le_of_lt (hbest j hj).1 (UInt32.not_le.mp hlen)

/-- `swap_out` finds nobody. -/
theorem Quiet.swapOut (h : mm.Quiet hs fs) : mm.swapOut = .ok none := by
  rw [swapOut_eq h.outswap]
  refine tryEach_eq_none.mpr ?_
  intro i _
  rcases swapOutProc_cases h.valid.slots h.valid.coalesced h.valid.stop_le i with
    ⟨hnone, -⟩ | ⟨_, _, _, hswappable, -⟩
  · exact hnone
  · rw [h.stays i] at hswappable
    cases hswappable

/-- One pass decides, since nobody can be swapped out. -/
theorem allocMem_quiet (h : mm.Quiet hs fs) (clicks : UInt32) :
    (∃ i b mm', mm.Picks hs clicks i ∧ mm.allocMem clicks = .ok (b, mm') ∧
        mm.Carves hs clicks i b mm') ∨
      ((∀ i ∈ hs, (mm.table.hole i).hLen < clicks) ∧ mm.allocMem clicks = .ok (noMem, mm)) := by
  rcases fit_picks h clicks with ⟨prevPtr, l₁, i, l₂, rfl, hfit, hprev, hpicks⟩ | ⟨hfit, hsmall⟩
  · obtain ⟨table, m', hbite, hrep, -, hm', -⟩ :=
      HoleTable.bite_cases prevPtr h.valid.slots h.valid.coalesced hprev hpicks.fits
        (h.valid.stop_le _ (List.mem_map_of_mem hpicks.mem))
    refine Or.inl ⟨i, (mm.table.hole i).hBase, { mm with table := table }, hpicks, ?_, rfl, rfl,
      l₁, l₂, rfl, hm' ▸ hrep⟩
    rw [allocMem, allocLoop, hfit]
    simp only [bind, Except.bind, hbite]
    rfl
  · refine Or.inr ⟨hsmall, ?_⟩
    rw [allocMem, allocLoop, hfit]
    simp only [bind, Except.bind, h.swapOut]
    rfl

/-- The state after a request in a quiet state. -/
structure Placed (mm : Mm) (hs : List (Fin nrHoles)) (clicks b : UInt32) (mm' : Mm) : Prop where
  /-- The request fails just when all holes are too small. -/
  fails : b = noMem ↔ ∀ i ∈ hs, (mm.table.hole i).hLen < clicks
  unchanged : b = noMem → mm' = mm
  /-- Otherwise the hole of the mode gets smaller. -/
  carves : b ≠ noMem → ∃ i, mm.Picks hs clicks i ∧ mm.Carves hs clicks i b mm'

/-- A request in a quiet state: `fit` finds the hole of the mode, and `alloc_mem` carves it. When
there is none, `swap_out` finds no candidate, and the state stays. -/
theorem Quiet.placed (h : mm.Quiet hs fs) (clicks : UInt32) :
    ∃ b mm', mm.allocMem clicks = .ok (b, mm') ∧ mm.Placed hs clicks b mm' := by
  rcases allocMem_quiet h clicks with ⟨i, b, mm', hpicks, hok, hcarves⟩ | ⟨hsmall, hok⟩
  · -- No hole starts at address 0, so the block is not taken for a failure.
    have hb : b ≠ noMem := hcarves.base ▸ h.base_ne i hpicks.mem
    refine ⟨b, mm', hok, ⟨?_, fun hno => absurd hno hb, fun _ => ⟨i, hpicks, hcarves⟩⟩⟩
    constructor
    · intro hno
      exact absurd hno hb
    · intro hsmall
      exact absurd hpicks.fits (UInt32.not_le.mpr (hsmall i hpicks.mem))
  · exact ⟨noMem, mm, hok, ⟨fun _ => hsmall, fun _ => rfl⟩, fun _ => rfl, fun hb => absurd rfl hb⟩

/-- A request fails just when all holes are too small. The placement mode does not matter for this.
-/
theorem Quiet.fails_iff (h : mm.Quiet hs fs) :
    (∃ mm', mm.allocMem clicks = .ok (noMem, mm')) ↔
      ∀ i ∈ hs, (mm.table.hole i).hLen < clicks := by
  obtain ⟨b, mm', hok, hplaced⟩ := h.placed clicks
  rw [← hplaced.fails]
  constructor
  · rintro ⟨mm'', hno⟩
    rw [hok] at hno
    exact (Prod.mk.inj (Except.ok.inj hno)).1
  · rintro rfl
    exact ⟨mm', hok⟩

/-- `worst_fit` has nothing to do with it. -/
theorem Quiet.mode (h : mm.Quiet hs fs) (mode : Int) : { mm with worstFit := mode }.Quiet hs fs :=
  ⟨h.valid, h.base_ne, h.memory, h.stays, h.outswap⟩

end

end Mm

/-- A request in a quiet state, in any placement mode. It returns, with the hole of the mode or
without a change, and it fails in one mode just when it fails in the other one. -/
theorem alloc_by_mode [MmConfig] (mm : Mm) (hs fs : List (Fin nrHoles)) (h : mm.Quiet hs fs)
    (clicks : UInt32) :
    (∃ b mm', mm.allocMem clicks = .ok (b, mm') ∧ mm.Placed hs clicks b mm') ∧
      ∀ mode mode' : Int,
        (∃ mm', { mm with worstFit := mode }.allocMem clicks = .ok (noMem, mm')) ↔
          ∃ mm', { mm with worstFit := mode' }.allocMem clicks = .ok (noMem, mm') := by
  refine ⟨h.placed clicks, ?_⟩
  intro mode mode'
  exact (h.mode mode).fails_iff.trans (h.mode mode').fails_iff.symm

/-! ### A small memory -/

section
attribute [local instance] tinyConfig

/-- The memory of the small system after `mem_init`, in the worst-fit mode: four clicks from 4 on,
and six from 16 on. -/
def tinyWorst : Mm := { tinyBoot.mm with worstFit := 1 }

/-- Two holes in memory, and no process. -/
theorem tinyWorst_quiet : tinyWorst.Quiet [⟨0, by decide⟩, ⟨1, by decide⟩]
    [⟨2, by decide⟩, ⟨3, by decide⟩] :=
  ⟨⟨⟨rfl, rfl, rfl⟩, ⟨rfl, rfl, rfl⟩, by decide, by decide, by decide, by decide, by decide⟩,
    by decide, by decide, by decide, by decide⟩

/-- Three clicks in worst fit. -/
theorem alloc_by_mode_tiny : ∃ b mm', tinyWorst.allocMem 3 = .ok (b, mm') ∧
    tinyWorst.Placed [⟨0, by decide⟩, ⟨1, by decide⟩] 3 b mm' :=
  (alloc_by_mode tinyWorst _ _ tinyWorst_quiet 3).1

/-- First fit takes the four clicks, and worst fit goes to the six. -/
example : (tinyBoot.mm.allocMem 3).map Prod.fst = .ok 4 ∧
    (tinyWorst.allocMem 3).map Prod.fst = .ok 16 := by decide

end

end Soi.Pamiec
