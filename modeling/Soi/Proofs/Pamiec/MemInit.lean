import Soi.Proofs.Pamiec.Ledger

/-!
# `Soi.Proofs.Pamiec.MemInit`: the state after `mem_init`

`memInit_ok` shows that `mem_init` over disjoint chunks returns: `free_mem` finds an unused entry
for each chunk, since there are at most as many holes as chunks before it. `booted_inv` shows
that the state after it satisfies `Sys.Inv`, with nothing allocated.
-/

set_option autoImplicit false

namespace Soi.Pamiec

open Soi.Lib

/-- The clicks of some chunks. -/
def chunkAreas (chunks : List SysMem) : List Extent := chunks.map fun r => range r.base r.size

/-- The areas of two lists of chunks. -/
theorem chunkAreas_append (l₁ l₂ : List SysMem) :
    chunkAreas (l₁ ++ l₂) = chunkAreas l₁ ++ chunkAreas l₂ := List.map_append

/-- A click of the areas is in one of the chunks. -/
theorem exists_chunk {chunks : List SysMem} {x : Nat} (h : cover (chunkAreas chunks) x ≠ 0) :
    ∃ r ∈ chunks, r.base.toNat ≤ x ∧ x < r.base.toNat + r.size.toNat := by
  obtain ⟨e, he, hx⟩ := cover_pos.mp (Nat.pos_of_ne_zero h)
  obtain ⟨r, hr, rfl⟩ := List.mem_map.mp he
  exact ⟨r, hr, hx⟩

/-- The areas with one chunk more. -/
theorem cover_chunkAreas_concat (chunks : List SysMem) (r : SysMem) (x : Nat) :
    cover (chunkAreas (chunks ++ [r])) x
      = cover (chunkAreas chunks) x + if x ∈ range r.base r.size then 1 else 0 := by
  rw [chunkAreas_append, cover_append]
  show _ + cover [range r.base r.size] x = _
  rw [cover_cons, cover_nil, Nat.add_zero]

section
variable [MmConfig] {chunks : List SysMem}

section
variable {mm mm' : Mm}

namespace Mm

/-- The loop of `mem_init` leaves the descriptor of the swap file alone. -/
theorem memInitLoop_swapFd {replies : List (Option SysMem)} {total free : UInt32}
    {sums : UInt32 × UInt32} (hok : memInitLoop replies mm total free = .ok (mm', sums)) :
    mm'.swapFd = mm.swapFd := by
  induction replies generalizing mm total free with
  | nil =>
      rw [memInitLoop] at hok
      rw [(Prod.mk.inj (Except.ok.inj hok)).1]
  | cons r replies ih =>
      cases r with
      | none => cases hok
      | some r =>
          rw [memInitLoop] at hok
          split_ifs at hok
          · rw [(Prod.mk.inj (Except.ok.inj hok)).1]
          · obtain ⟨mm₁, hfree, hok⟩ := exists_of_bind hok
            have hfd₁ := congrArg (fun r => r.1) (freeMem_settings hfree)
            rw [ih hok]
            split_ifs <;> exact hfd₁

/-- `mem_init` does not open the swap file: its descriptor is the one before. -/
theorem memInit_swapFd {replies : List (Option SysMem)} {total : UInt32}
    {sums : UInt32 × UInt32} (hok : mm.memInit replies total = .ok (mm', sums)) :
    mm'.swapFd = mm.swapFd := by
  rw [memInit] at hok
  obtain ⟨⟨mm₁, sums₁⟩, hloop, hok⟩ := exists_of_bind hok
  have hfd := memInitLoop_swapFd hloop
  rw [← (Prod.mk.inj (Except.ok.inj hok)).1]
  exact hfd

end Mm

end

/-- An empty hole list, and all entries on the list of the unused ones. -/
theorem clearTable_represents (t : HoleTable nrHoles) : (Mm.clearTable t).Represents [] := by
  refine ⟨[], List.finRange nrHoles, ⟨rfl, ?_, List.Perm.refl _⟩, rfl⟩
  exact seg_succ (fun i => rfl) nrHoles 0 (Nat.zero_add _)

/-- The chunks are a territory: they are disjoint, and they leave the click 0 out. -/
theorem Chunks.territory (h : Chunks chunks) : Territory (cover (chunkAreas chunks)) := by
  have hlt : ∀ x, cover (chunkAreas chunks) x ≠ 0 → 0 < x ∧ x < 2 ^ 32 := by
    intro x hx
    obtain ⟨r, hr, hxr⟩ := exists_chunk hx
    have hbase : r.base.toNat ≠ 0 := fun h0 => h.base_ne r hr (UInt32.toNat_inj.mp h0)
    have hstop := h.stop_lt r hr
    omega
  refine ⟨?_, fun x hx => (hlt x hx).2, 0, Nat.two_pow_pos 32, ?_⟩
  · have hdisj := h.disjoint
    clear hlt h
    intro x
    -- Induction on the chunks: `x` is in the first one or in the rest, but not in both.
    induction chunks with
    | nil => exact Nat.zero_le 1
    | cons r l ih =>
        obtain ⟨hr, hl⟩ := List.pairwise_cons.mp hdisj
        rw [chunkAreas, List.map_cons, cover_cons]
        split_ifs with hx
        · have hzero : cover (chunkAreas l) x = 0 := by
            by_contra hne
            obtain ⟨r', hr', hxr'⟩ := exists_chunk hne
            exact hr r' hr' x hx hxr'
          exact (congrArg (1 + ·) hzero).le
        · rw [Nat.zero_add]
          exact ih hl
  · by_contra hne
    exact absurd (hlt 0 hne).1 (lt_irrefl 0)

/-- `mem_init` raises `swap_base` to the end of a chunk when it is below. -/
theorem raise_swapBase (mm : Mm) {base size : UInt32}
    (h : base.toNat + size.toNat < 2 ^ 32) :
    let mm' := if mm.swapBase < base + size then { mm with swapBase := base + size } else mm
    mm'.table = mm.table ∧ mm.swapBase.toNat ≤ mm'.swapBase.toNat ∧
      base.toNat + size.toNat ≤ mm'.swapBase.toNat := by
  have hsum : (base + size).toNat = base.toNat + size.toNat := by
    rw [UInt32.toNat_add, Nat.mod_eq_of_lt h]
  intro mm'
  simp only [mm']
  split_ifs with hlt
  · have := UInt32.lt_iff_toNat_lt.mp hlt
    refine ⟨rfl, ?_, ?_⟩
    · show mm.swapBase.toNat ≤ (base + size).toNat
      omega
    · exact hsum.ge
  · have := UInt32.le_iff_toNat_le.mp (UInt32.not_lt.mp hlt)
    exact ⟨rfl, le_refl _, by omega⟩

/-- The loop of `mem_init` after the chunks `before`, with the chunks `after` still to come. -/
theorem memInitLoop_ok (mm : Mm) (before after : List SysMem) (h : Chunks (before ++ after))
    {m : List Extent} (hrep : mm.table.Represents m) (hm : Coalesced m)
    (hcover : ∀ x, cover m x = cover (chunkAreas before) x) (hlen : m.length ≤ before.length)
    (hbase : ∀ r ∈ before, r.base.toNat + r.size.toNat ≤ mm.swapBase.toNat)
    (total free : UInt32) :
    ∃ mm' sums m', mm.memInitLoop (after.map some) total free = .ok (mm', sums) ∧
      mm'.table.Represents m' ∧ Coalesced m' ∧
      (∀ x, cover m' x = cover (chunkAreas (before ++ after)) x) ∧
      (∀ r ∈ before ++ after, r.base.toNat + r.size.toNat ≤ mm'.swapBase.toNat) := by
  -- Induction on the chunks still to come. The holes cover the chunks before, and they are at most
  -- as many, which leaves an unused entry for the next chunk.
  induction after generalizing mm before m total free with
  | nil =>
      rw [List.append_nil]
      exact ⟨mm, _, m, rfl, hrep, hm, hcover, hbase⟩
  | cons r after ih =>
      have hsplit : before ++ r :: after = before ++ [r] ++ after := by simp
      have hr : r ∈ before ++ r :: after := by simp
      have hsize := h.size_ne r hr
      have hstop := h.stop_lt r hr
      have hterr := h.territory
      -- The chunk is disjoint from the holes, which are the chunks before it.
      have hfree : HoleTable.Freeable (range r.base r.size) m := by
        refine hterr.freeable hm ?_
        intro x
        rw [hsplit, chunkAreas_append, cover_append, cover_chunkAreas_concat, cover_cons, hcover x]
        omega
      have hslot : m.length < nrHoles := by
        have := h.length_le
        rw [List.length_append, List.length_cons] at this
        omega
      obtain ⟨t', hok, hrep'⟩ := HoleTable.freeMem_spec hrep hm hslot hsize hfree
      have hpos : 0 < (range r.base r.size).len :=
        Nat.pos_of_ne_zero fun h0 => hsize (UInt32.toNat_inj.mp h0)
      set mm₁ : Mm := { mm with table := t' } with hmm₁
      set mm₂ : Mm :=
        if mm₁.swapBase < r.base + r.size then { mm₁ with swapBase := r.base + r.size } else mm₁
        with hmm₂
      obtain ⟨htable, hle, hend⟩ : mm₂.table = t' ∧ mm.swapBase.toNat ≤ mm₂.swapBase.toNat ∧
          r.base.toNat + r.size.toNat ≤ mm₂.swapBase.toNat := raise_swapBase mm₁ hstop
      have hcover₂ : ∀ x, cover (insertExtent (range r.base r.size) m) x
          = cover (chunkAreas (before ++ [r])) x := by
        intro x
        rw [cover_insertExtent, cover_cons, hcover x, cover_chunkAreas_concat, Nat.add_comm]
      have hlen₂ : (insertExtent (range r.base r.size) m).length ≤ (before ++ [r]).length := by
        rw [List.length_append, List.length_singleton]
        exact (length_insertExtent_le _ m).trans (Nat.succ_le_succ hlen)
      have hbase₂ : ∀ r' ∈ before ++ [r], r'.base.toNat + r'.size.toNat ≤ mm₂.swapBase.toNat := by
        intro r' hr'
        rcases List.mem_append.mp hr' with hr' | hr'
        · exact (hbase r' hr').trans hle
        · rw [List.mem_singleton.mp hr']
          exact hend
      obtain ⟨mm', sums, m', hloop, hrep'', hm'', hcover'', hbase''⟩ :=
        ih mm₂ (before ++ [r]) (hsplit ▸ h) (htable ▸ hrep')
          (coalesced_insertExtent hm hpos hfree.disjoint) hcover₂ hlen₂ hbase₂ r.total
          (free + r.size)
      refine ⟨mm', sums, m', ?_, hrep'', hm'', hsplit ▸ hcover'', hsplit ▸ hbase''⟩
      rw [List.map_cons, Mm.memInitLoop, if_neg hsize]
      have hok' : mm.freeMem r.base r.size = .ok mm₁ := by
        rw [Mm.freeMem, hok]
        rfl
      rw [hok']
      exact hloop

/-- `mem_init` over disjoint chunks returns. The holes are then the chunks, and `swap_base` is
at least one click above each of them. -/
theorem memInit_ok (mm : Mm) (h : Chunks chunks) (total : UInt32) :
    ∃ mm' sums m', mm.memInit (chunks.map some) total = .ok (mm', sums) ∧
      mm'.table.Represents m' ∧ Coalesced m' ∧
      (∀ x, cover m' x = cover (chunkAreas chunks) x) ∧ AreasFit (chunkAreas chunks) mm' ∧
      ∀ x, x + 1 = mm'.swapBase.toNat → cover (chunkAreas chunks) x = 0 := by
  obtain ⟨mm₁, ⟨total', free⟩, m', hloop, hrep, hm, hcover, hstops⟩ :=
    memInitLoop_ok { mm with table := Mm.clearTable mm.table } [] chunks h
      (clearTable_represents mm.table) coalesced_nil (fun x => rfl) (Nat.le_refl 0) (by simp)
      total 0
  refine ⟨{ mm₁ with swapBase := mm₁.swapBase + 1, swapMaxsize := 0 - (mm₁.swapBase + 1) },
    (total', free), m', ?_, hrep, hm, hcover, ⟨h.territory, ?_⟩, ?_⟩
  · rw [Mm.memInit, hloop]
    rfl
  · intro _ hmax
    have hmax : (0 : UInt32) - (mm₁.swapBase + 1) ≠ 0 := hmax
    show 0 < (mm₁.swapBase + 1).toNat ∧
      (mm₁.swapBase + 1).toNat + (0 - (mm₁.swapBase + 1)).toNat ≤ 2 ^ 32 ∧
      ∀ x, cover (chunkAreas chunks) x ≠ 0 → x + 1 < (mm₁.swapBase + 1).toNat
    have hlt := mm₁.swapBase.toNat_lt
    -- A `swap_base` that wraps around would leave no space for a swap area.
    have hne : mm₁.swapBase.toNat + 1 ≠ 2 ^ 32 := by
      intro hwrap
      refine hmax ?_
      have hzero : mm₁.swapBase + 1 = 0 := UInt32.toNat_inj.mp (by
        rw [UInt32.toNat_add, show (1 : UInt32).toNat = 1 from rfl, hwrap]
        rfl)
      rw [hzero]
      rfl
    have hsucc : (mm₁.swapBase + 1).toNat = mm₁.swapBase.toNat + 1 := by
      rw [UInt32.toNat_add, show (1 : UInt32).toNat = 1 from rfl, Nat.mod_eq_of_lt (by omega)]
    refine ⟨by omega, ?_, ?_⟩
    · rw [UInt32.toNat_sub, hsucc, show (0 : UInt32).toNat = 0 from rfl]
      have := Nat.mod_le (2 ^ 32 - (mm₁.swapBase.toNat + 1) + 0) (2 ^ 32)
      omega
    · intro x hx
      obtain ⟨r, hr, hxr⟩ := exists_chunk hx
      have hstop := hstops r hr
      omega
  · -- No chunk reaches the click at the old `swap_base`.
    intro x hx
    have hx : x + 1 = (mm₁.swapBase + 1).toNat := hx
    by_contra hne
    obtain ⟨r, hr, hxr⟩ := exists_chunk hne
    have hstop := hstops r hr
    rw [UInt32.toNat_add, show (1 : UInt32).toNat = 1 from rfl] at hx
    have := mm₁.swapBase.toNat_lt
    omega

/-- The areas are the chunks. -/
theorem Booted.areas_eq {s : Sys} (hboot : Booted chunks s) : s.areas = chunkAreas chunks := by
  obtain ⟨-, -, -, -, -, -, -, -, hareas⟩ := hboot
  exact hareas

/-- There is no swap file yet. -/
theorem Booted.swapFd_eq {s : Sys} (hboot : Booted chunks s) : s.mm.swapFd = -1 := by
  obtain ⟨mm₀, total, free, -, hfd, hok, -⟩ := hboot
  rw [Mm.memInit_swapFd hok, hfd]

/-- The state right after `mem_init` satisfies the invariants of the runs. -/
theorem booted_inv {s : Sys} (h : Chunks chunks) (hboot : Booted chunks s) : s.Inv ∧ s.Gap := by
  have hareas := hboot.areas_eq
  obtain ⟨mm₀, total, free, -, -, hok, hlive, hblocks, -⟩ := hboot
  obtain ⟨mm', sums, m', hok', hrep, hm, hcover, hfit, hgap⟩ := memInit_ok mm₀ h total
  have hmm : s.mm = mm' := (Prod.mk.inj (Except.ok.inj (hok.symm.trans hok'))).1
  refine ⟨⟨hareas ▸ hmm ▸ hfit, cover m', ⟨m', hmm ▸ hrep, hm, ?_⟩, ?_⟩, ?_⟩
  · intro x
    rw [hlive]
    rfl
  · rw [hblocks, hareas]
    refine ⟨[], by simp, ?_⟩
    intro x
    simp only [cover_nil, Nat.add_zero]
    exact hcover x
  · intro x hx
    rw [hareas]
    exact hgap x (hmm ▸ hx)

/-- In a run from `mem_init` the areas are the chunks, and the swap area once a file was opened. -/
theorem Booted.areasSince {s₀ s : Sys} (hboot : Booted chunks s₀) (hrun : Sys.Reaches s₀ s) :
    s₀.AreasSince s :=
  Sys.reaches_areas (by rw [hboot.swapFd_eq]; decide) hrun

/-- Both invariants hold in each state that a run from `mem_init` reaches. -/
theorem inv_of_booted {s₀ s : Sys} (h : Chunks chunks) (hboot : Booted chunks s₀)
    (hrun : Sys.Reaches s₀ s) : s.Inv ∧ s.Gap :=
  Run.invariant (P := fun s => s.Inv ∧ s.Gap) hrun (booted_inv h hboot)
    fun _ _ hs hstep => ⟨Sys.step_inv hs.1 hstep, Sys.step_gap hs.2 hstep⟩

end

end Soi.Pamiec
