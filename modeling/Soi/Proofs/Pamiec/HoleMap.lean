import Soi.Pamiec.HoleMap
import Soi.Proofs.Pamiec.HoleList

/-!
# `Soi.Proofs.Pamiec.HoleMap`: `HOLE_MAP` and its reader agree

`holeMapLoop_ok` states what the loop of `do_hole_map` writes: the pairs of the first holes below
`swap_base`, as many as fit. `readHoles_pairs` is the round trip of the format: the reader stops
at the terminator, since no hole has length 0. `doHoleMap_of_reaches` puts them together for all
states that a run reaches and all sizes of the caller's buffer.
-/

set_option autoImplicit false

namespace Soi.Pamiec

open Soi.Lib

/-- The words that stand for one hole. -/
def Hole.pair {n : Nat} (h : Hole n) : List UInt32 := [h.hLen, h.hBase]

/-- The reader gets back the pairs in front of a terminator, whatever is behind it. -/
theorem readHoles_pairs (pairs : List (UInt32 × UInt32)) (hpos : ∀ p ∈ pairs, p.1 ≠ 0)
    (rest : List UInt32) :
    readHoles (pairs.flatMap (fun p => [p.1, p.2]) ++ 0 :: rest) = .ok (pairs, 0 :: rest) := by
  -- Induction on the pairs. The length of a pair is no terminator.
  induction pairs with
  | nil =>
      show readHoles (0 :: rest) = _
      cases rest <;> rfl
  | cons p pairs ih =>
      have hp := hpos p List.mem_cons_self
      have ih := ih fun q hq => hpos q (List.mem_cons_of_mem p hq)
      show readHoles (p.1 :: p.2 :: (pairs.flatMap (fun p => [p.1, p.2]) ++ 0 :: rest)) = _
      rw [readHoles, if_neg hp, ih]
      rfl

/-- A write into the array succeeds when there is a place left. -/
theorem putWord_ok {size : Nat} {buffer : List UInt32} (h : buffer.length < size)
    (word : UInt32) : putWord size buffer word = .ok (buffer ++ [word]) := if_pos h

namespace HoleTable

variable {n : Nat} {t : HoleTable n} {swapBase : UInt32}

/-- Each hole takes two words. -/
theorem length_pairs (l : List (Fin n)) :
    (l.flatMap fun a => (t.hole a).pair).length = 2 * l.length := by
  induction l with
  | nil => rfl
  | cons a l ih =>
      rw [List.flatMap_cons, List.length_append, ih, List.length_cons]
      show 2 + _ = _
      omega

/-- The loop of `do_hole_map` over the holes `l₁` below the boundary and `l₂` above it: it
writes the pairs of `l₁` in order, until `k` pairs are written. -/
theorem holeMapLoop_ok {l₁ l₂ : List (Fin n)} {hp : Option (Fin n)} {fuel k : Nat}
    {buffer : List UInt32} (hseg : Seg t.next hp (l₁ ++ l₂) none)
    (hfuel : (l₁ ++ l₂).length ≤ fuel) (hroom : buffer.length + 2 * l₁.length ≤ 2 * n)
    (h₁ : ∀ a ∈ l₁, (t.hole a).hBase < swapBase)
    (h₂ : ∀ a ∈ l₂, ¬ (t.hole a).hBase < swapBase) :
    t.holeMapLoop swapBase fuel hp k buffer
      = .ok (buffer ++ (l₁.take k).flatMap fun a => (t.hole a).pair) := by
  -- Induction on the holes below the boundary, with the words written so far as a parameter.
  induction l₁ generalizing hp fuel k buffer with
  | nil =>
      rw [List.take_nil, List.flatMap_nil, List.append_nil]
      cases l₂ with
      | nil =>
          have hp : hp = none := hseg
          subst hp
          cases fuel <;> rfl
      | cons a l₂ =>
          obtain ⟨rfl, -⟩ := hseg
          cases fuel with
          | zero => simp at hfuel
          | succ fuel =>
              -- The first hole at or above the boundary ends the loop.
              rw [holeMapLoop, if_neg fun h => h₂ a List.mem_cons_self h.1]
              rfl
  | cons a l₁ ih =>
      obtain ⟨rfl, hseg⟩ := hseg
      cases fuel with
      | zero => simp at hfuel
      | succ fuel =>
          have hbase := h₁ a List.mem_cons_self
          rw [holeMapLoop]
          cases k with
          | zero =>
              -- No room for a further pair in the caller's buffer.
              rw [if_neg (by simp), List.take_zero, List.flatMap_nil, List.append_nil]
              rfl
          | succ k =>
              rw [List.length_cons] at hroom
              -- Both words of the pair fit into the local array.
              have hput₁ : buffer.length < 2 * n + 1 := by omega
              have hput₂ : (buffer ++ [(t.hole a).hLen]).length < 2 * n + 1 := by
                rw [List.length_append, List.length_singleton]
                omega
              rw [if_pos ⟨hbase, by omega⟩, putWord_ok hput₁]
              show (putWord (2 * n + 1) (buffer ++ [(t.hole a).hLen]) (t.hole a).hBase >>= _) = _
              rw [putWord_ok hput₂]
              have hrest : t.holeMapLoop swapBase fuel (t.hole a).hNext k
                  (buffer ++ [(t.hole a).hLen] ++ [(t.hole a).hBase]) = _ :=
                ih hseg (by simpa using hfuel) (by simp; omega)
                  fun b hb => h₁ b (List.mem_cons_of_mem a hb)
              rw [List.take_succ_cons, List.flatMap_cons]
              simpa [bind, Except.bind, Hole.pair] using hrest

end HoleTable

/-- The pairs that fit into a buffer of at least one word. -/
theorem nrPairs_eq {nbytes : UInt32} (h : 4 ≤ nbytes.toNat) :
    nrPairs nbytes = ((nbytes.toNat / 4 - 1) / 2 : Nat) := by
  have hword : (nbytes / sizeofPhysClicks).toNat = nbytes.toNat / 4 := UInt32.toNat_div _ _
  have hone : (1 : UInt32) ≤ nbytes / sizeofPhysClicks := by
    rw [UInt32.le_iff_toNat_le, hword]
    show 1 ≤ _
    omega
  have hsub : (nbytes / sizeofPhysClicks - 1).toNat = nbytes.toNat / 4 - 1 := by
    rw [UInt32.toNat_sub_of_le _ _ hone, hword]
    rfl
  rw [nrPairs, if_neg (by omega), UInt32.toNat_div, hsub]
  rfl

section
variable [MmConfig] {s : Sys}

/-- `do_hole_map` on a table with the holes `l₁` below `swap_base` and `l₂` above it. -/
theorem Mm.doHoleMap_ok {mm : Mm} {l₁ l₂ fs : List (Fin nrHoles)} {nbytes : UInt32}
    (hslots : mm.table.Slots (l₁ ++ l₂) fs) (h₁ : ∀ a ∈ l₁, (mm.table.hole a).hBase < mm.swapBase)
    (h₂ : ∀ a ∈ l₂, ¬ (mm.table.hole a).hBase < mm.swapBase) (hbytes : 4 ≤ nbytes.toNat) :
    mm.doHoleMap nbytes = .ok ⟨(l₁.take ((nbytes.toNat / 4 - 1) / 2)).length,
      some ((l₁.take ((nbytes.toNat / 4 - 1) / 2)).flatMap (fun a => (mm.table.hole a).pair)
        ++ [0])⟩ := by
  have hlen := hslots.length_le
  set k := (nbytes.toNat / 4 - 1) / 2 with hk
  have hroom : ([] : List UInt32).length + 2 * l₁.length ≤ 2 * nrHoles := by
    rw [List.length_append] at hlen
    rw [List.length_nil]
    omega
  have hloop := HoleTable.holeMapLoop_ok (k := k) hslots.holes hlen hroom h₁ h₂
  rw [List.nil_append] at hloop
  -- The terminator fits as well: the array has one word more than the pairs of a full table.
  have hput : ((l₁.take k).flatMap fun a => (mm.table.hole a).pair).length < 2 * nrHoles + 1 := by
    rw [HoleTable.length_pairs]
    rw [List.length_append] at hlen
    have := List.length_take_le' k l₁
    omega
  have hnot : ¬ nbytes < sizeofPhysClicks := by
    rw [UInt32.lt_iff_toNat_lt]
    exact Nat.not_lt.mpr hbytes
  rw [doHoleMap, nrPairs_eq hbytes, ← hk, if_neg hnot]
  simp only [hloop, bind, Except.bind, putWord_ok hput, pure, Except.pure]
  rw [HoleTable.length_pairs]
  congr 2
  omega

/-- `do_hole_map` in each state that a run from `mem_init` reaches, for each size of the buffer.
Below one word it copies nothing and returns -1. Otherwise it copies the pairs of the lowest
holes below `swap_base`, as many as fit, and a 0. The words fit into the caller's buffer and into
the local array, and the reader gets the holes back and stops at the 0. -/
theorem doHoleMap_of_reaches (chunks : List SysMem) (hchunks : Chunks chunks) (s₀ s : Sys)
    (hboot : Booted chunks s₀) (hrun : Sys.Reaches s₀ s) (nbytes : UInt32) :
    ∃ hs fs, s.mm.table.Valid s.mm.swapBase hs fs ∧
      (nbytes.toNat < 4 → s.mm.doHoleMap nbytes = .ok ⟨-1, none⟩) ∧
      (4 ≤ nbytes.toNat →
        let below := hs.filter fun a => (s.mm.table.hole a).hBase < s.mm.swapBase
        let k := min below.length ((nbytes.toNat / 4 - 1) / 2)
        let words := (below.take k).flatMap (fun a => (s.mm.table.hole a).pair) ++ [0]
        s.mm.doHoleMap nbytes = .ok ⟨k, some words⟩ ∧
          words.length = 2 * k + 1 ∧ 4 * words.length ≤ nbytes.toNat ∧
          words.length ≤ 2 * nrHoles + 1 ∧
          ∀ rest, readHoles (words ++ rest) = .ok
            ((below.take k).map fun a => ((s.mm.table.hole a).hLen, (s.mm.table.hole a).hBase),
              0 :: rest)) := by
  obtain ⟨hinv, hgap⟩ := inv_of_booted hchunks hboot hrun
  obtain ⟨hs, fs, hvalid, -⟩ := hinv.valid hgap
  refine ⟨hs, fs, hvalid, ?_, ?_⟩
  · intro hsmall
    have hlt : nbytes < sizeofPhysClicks := UInt32.lt_iff_toNat_lt.mpr hsmall
    rw [Mm.doHoleMap, if_pos hlt]
    rfl
  · intro hbytes
    have hslots : s.mm.table.Slots hs fs := ⟨hvalid.holes, hvalid.unused, hvalid.perm⟩
    have hlen := hslots.length_le
    -- The holes are sorted, so those below the boundary come first.
    obtain ⟨l₁, l₂, rfl, h₁, h₂⟩ :=
      HoleTable.exists_split_base s.mm.swapBase hs hvalid.gap
    rw [HoleTable.filter_below h₁ h₂]
    intro below k words
    rw [List.length_append] at hlen
    have hkl : k ≤ l₁.length := Nat.min_le_left _ _
    have hkn : k ≤ (nbytes.toNat / 4 - 1) / 2 := Nat.min_le_right _ _
    have hk : k = (l₁.take ((nbytes.toNat / 4 - 1) / 2)).length := by
      rw [List.length_take, Nat.min_comm]
    have htake : l₁.take k = l₁.take ((nbytes.toNat / 4 - 1) / 2) := by
      rw [hk, List.length_take, List.take_eq_take_iff]
      omega
    have hwords : words.length = 2 * k + 1 := by
      show ((l₁.take k).flatMap (fun a => (s.mm.table.hole a).pair) ++ [0]).length = _
      rw [List.length_append, HoleTable.length_pairs, List.length_take]
      show 2 * min k l₁.length + 1 = 2 * k + 1
      omega
    refine ⟨?_, hwords, by omega, by omega, ?_⟩
    · rw [Mm.doHoleMap_ok hslots h₁ h₂ hbytes, ← hk, ← htake]
    · -- No hole has length 0, so the first 0 that the reader meets is the terminator.
      intro rest
      have hpos : ∀ p ∈ (l₁.take k).map fun a =>
          ((s.mm.table.hole a).hLen, (s.mm.table.hole a).hBase), p.1 ≠ 0 := by
        intro p hp
        obtain ⟨a, ha, rfl⟩ := List.mem_map.mp hp
        have hmem : a ∈ l₁ ++ l₂ := List.mem_append_left _ (List.mem_of_mem_take ha)
        have hlen : 0 < (s.mm.table.hole a).hLen.toNat :=
          hvalid.pos _ (List.mem_map_of_mem hmem)
        intro h0
        rw [show (s.mm.table.hole a).hLen = 0 from h0] at hlen
        exact absurd hlen (lt_irrefl 0)
      have hread := readHoles_pairs _ hpos rest
      rw [List.flatMap_map] at hread
      rw [List.append_assoc]
      exact hread

end

section
attribute [local instance] tinyConfig

/-- The small system with eight clicks of swap. -/
def tinySwap : Sys :=
  { tinyNext with
    mm := match tinyNext.mm.swapOn 3 0 0x8000 with
      | .ok r => r.2
      | .error _ => tinyNext.mm
    areas := tinyNext.areas ++ [range 23 8] }

/-- `alloc_mem` and `swap_on`. -/
theorem tinySwap_reached : Sys.Reaches tinyBoot tinySwap :=
  tinyNext_reached.tail (@Sys.Step.swapOn _ tinyNext 3 0 0x8000 _ _ rfl)

/-- A buffer of six words gets the two holes in memory, but not the swap hole. -/
theorem doHoleMap_of_reaches_tiny :
    tinySwap.mm.doHoleMap 24 = .ok ⟨2, some [4, 4, 1, 21, 0]⟩ ∧
      ∀ rest, readHoles ([4, 4, 1, 21, 0] ++ rest) = .ok ([(4, 4), (1, 21)], 0 :: rest) := by
  obtain ⟨hs, fs, hvalid, -, hbytes⟩ := doHoleMap_of_reaches tinyChunks tinyChunks_ok tinyBoot
    tinySwap tinyBoot_booted tinySwap_reached 24
  have hslots : tinySwap.mm.table.Slots [(0 : Fin 4), (1 : Fin 4), (2 : Fin 4)] [(3 : Fin 4)] :=
    ⟨⟨rfl, rfl, rfl, rfl⟩, ⟨rfl, rfl⟩, by decide⟩
  obtain ⟨rfl, rfl⟩ := hslots.unique ⟨hvalid.holes, hvalid.unused, hvalid.perm⟩
  obtain ⟨hok, -, -, -, hread⟩ := hbytes (by decide)
  exact ⟨hok, hread⟩

/-- A buffer of three words gets the first hole only. -/
example : tinySwap.mm.doHoleMap 12 = .ok ⟨1, some [4, 4, 0]⟩ := by decide

end

end Soi.Pamiec
