import Soi.Proofs.Pamiec.Returns

/-!
# `Soi.Proofs.Pamiec.Cycles`: swapping on and off, any number of times

In a run of `Sys.Cycle` swapping is turned on and off again and again, in first fit. A call of
`swap_off` that took all processes back gives up the swap area, and a later `swap_on` adds another
one. Two assumptions come from what is known about single calls: some memory is free when
`swap_off` removes the swap hole, and the swap area is in the part of the file that `lseek` reaches.

`Mm.Sorted` is the invariant of the processes: an image is in the swap area exactly when the process
is on swap, and then the file holds it. `Mm.Ground` are the clicks that the holes and the images
have. `Sorted.allocMem` and `Sorted.swapIn` follow the calls that move images, and
`Sys.step_cycled` is one call. `sorted_of_cycles` is the result about runs from `mem_init`.
-/

set_option autoImplicit false

namespace Soi.Pamiec

open Soi.Lib

section
variable [MmConfig] {mm mm' : Mm} {live : Finset (Fin nrProcs)} {T T' : Nat → Nat}

namespace Mm

/-- The descriptor is one of the variables of the swap area. -/
theorem swapFd_of_settings (hset : mm'.settings = mm.settings) : mm'.swapFd = mm.swapFd :=
  congrArg (fun r => r.1) hset

/-- So is `swap_base`. -/
theorem swapBase_of_settings (hset : mm'.settings = mm.settings) : mm'.swapBase = mm.swapBase :=
  congrArg (fun r => r.2.2.1) hset

/-- The holes and the live images have the clicks `T`. No click is next to the swap area, the swap
area can be reached in the file, and there is none without a swap file. -/
structure Ground (mm : Mm) (live : Finset (Fin nrProcs)) (T : Nat → Nat) : Prop where
  territory : Territory T
  holds : mm.Holds live T
  fits : mm.FileFits T
  gap : ∀ x, x + 1 = mm.swapBase.toNat → T x = 0
  off : mm.swapFd = -1 → ∀ x, T x ≠ 0 → x < mm.swapBase.toNat

/-- The processes that are on swap, and no others, have their images in the swap area, and the file
holds these images. -/
structure Sorted (mm : Mm) (live : Finset (Fin nrProcs)) : Prop where
  zoned : ∀ p ∈ live, ∀ x ∈ mm.image p,
    mm.swapBase.toNat ≤ x ↔ (mm.mproc p).mpFlags.onswap
  filed : mm.Filed live
  users : mm.Users
  firstFit : mm.worstFit = 0
  off : mm.swapFd = -1 → ∀ p, (mm.mproc p).mpFlags.onswap = false

/-- A call that only loses clicks keeps the ground. -/
theorem Ground.mono (h : mm.Ground live T) (hholds : mm'.Holds live T')
    (hset : mm'.settings = mm.settings) (hle : ∀ x, T' x ≤ T x) : mm'.Ground live T' := by
  obtain ⟨hterr, -, hfits, hgap, hoff⟩ := h
  simp only [settings, Prod.mk.injEq] at hset
  obtain ⟨hfd, hoffset, hbase, -⟩ := hset
  refine ⟨hterr.mono hle, hholds, ?_, ?_, ?_⟩
  · intro x hx
    have := hle x
    rw [hoffset, hbase]
    exact hfits x (by omega)
  · intro x hx
    rw [hbase] at hx
    have := hgap x hx
    have := hle x
    omega
  · intro hfd' x hx
    rw [hfd] at hfd'
    rw [hbase]
    have := hle x
    exact hoff hfd' x (by omega)

/-- A call that changes neither the process table nor the log. -/
theorem Sorted.congr (h : mm.Sorted live) (hset : mm'.settings = mm.settings)
    (hmproc : mm'.mproc = mm.mproc) (hlog : mm'.swapIo = mm.swapIo)
    (hout : mm'.outswap = mm.outswap) (hfit : mm'.worstFit = mm.worstFit) : mm'.Sorted live := by
  obtain ⟨hzoned, hfiled, husers, hfirst, hoff⟩ := h
  refine ⟨?_, hfiled.congr hset hmproc hlog, husers.frame hout fun p => hmproc ▸ id,
    hfit.trans hfirst, ?_⟩
  · intro p hp x hx
    rw [image, hmproc, ← image] at hx
    rw [swapBase_of_settings hset, hmproc]
    exact hzoned p hp x hx
  · intro hfd p
    rw [hmproc]
    exact hoff ((swapFd_of_settings hset).symm.trans hfd) p

/-! ### `swap_out` and `alloc_mem` -/

/-- One more process is swapped out, to the swap area. -/
theorem Sorted.swapOut (h : mm.Sorted live) (hg : mm.Ground live T)
    (hok : mm.swapOut = .ok (some mm')) : mm'.Sorted live ∧ mm'.Ground live T := by
  obtain ⟨i, -, hproc⟩ := swapOutLoop_user h.users.outswap hok
  have hlive := h.filed.movable i (Or.inl (swapOutProc_ok hproc).1)
  obtain ⟨m, hrep, hm, hcover⟩ := hg.holds
  have hholds' := swapOutProc_holds hg.territory hg.holds hlive hproc
  have hfiled' := h.filed.swapOutProc hg.territory hg.holds hg.fits hlive hproc
  have husers' := h.users.swapOut hok
  obtain ⟨newBase, table, rfl, hbase, hhole, -⟩ :=
    swapOutProc_place hg.territory hrep hm (cover_le_of_holds hcover) hproc
  have hset : (mm.swappedOut i newBase table).settings = mm.settings :=
    settings_swappedOut i newBase table
  refine ⟨⟨?_, hfiled', husers', h.firstFit, ?_⟩, hg.mono hholds' hset fun x => le_refl _⟩
  · intro p hp x hx
    show mm.swapBase.toNat ≤ x ↔ _
    by_cases hpi : p = i
    · -- The new place is behind a hole of the swap area.
      subst hpi
      rw [image_swappedOut_self, mem_range] at hx
      rw [mproc_swappedOut_self]
      exact iff_of_true ((UInt32.le_iff_toNat_le.mp hbase).trans hx.1) rfl
    · rw [image_swappedOut_of_ne mm hpi] at hx
      rw [mproc_swappedOut_of_ne mm hpi]
      exact h.zoned p hp x hx
  · -- Without a swap area there is no such hole.
    intro hfd
    have hfd : mm.swapFd = -1 := hfd
    have hsum := hcover newBase.toNat
    have := hg.off hfd newBase.toNat (by omega)
    have := UInt32.le_iff_toNat_le.mp hbase
    omega

/-- `alloc_mem` takes its block out of memory. -/
theorem Sorted.allocMem {clicks b : UInt32} (h : mm.Sorted live) (hg : mm.Ground live T)
    (hok : mm.allocMem clicks = .ok (b, mm')) :
    mm'.Sorted live ∧ (∃ T', mm'.Ground live T' ∧ ∀ x, T' x ≤ T x) ∧
      (b ≠ noMem → ∀ x ∈ range b clicks, x < mm.swapBase.toNat) := by
  obtain ⟨mm₁, hswaps, hcases⟩ := allocLoop_cases hok
  obtain ⟨h₁, hg₁⟩ : mm₁.Sorted live ∧ mm₁.Ground live T :=
    Run.invariant (P := fun a => a.Sorted live ∧ a.Ground live T) hswaps ⟨h, hg⟩
      fun a b ha hab => ha.1.swapOut ha.2 hab
  have hbase := swapBase_of_settings hswaps.settings
  rcases hcases with ⟨prevPtr, hp, table, hfit, hbite, rfl⟩ | ⟨-, -, rfl, rfl⟩
  · obtain ⟨m, ⟨hs, fs, hslots, rfl⟩, hm, hcover⟩ := hg₁.holds
    have hstop := hg₁.territory.holes_stop_le hm (cover_le_of_holds hcover)
    obtain ⟨l₁, l₂, m', rfl, rfl, hlen, hplace, hrep', hm', -, hcover'⟩ :=
      carve_cases hslots hm hstop hfit hbite
    have hle : ∀ x, cover m' x + mm₁.held live x ≤ T x := by
      intro x
      have hsum := hcover x
      have hnew := hcover' x
      rw [cover_cons] at hnew
      omega
    refine ⟨h₁.congr rfl rfl rfl rfl rfl,
      ⟨_, hg₁.mono ⟨m', hrep', hm', fun x => rfl⟩ rfl hle, hle⟩, ?_⟩
    intro _ x hx
    -- In first fit the hole starts in memory, and no hole goes on into the swap area.
    have hlow : (mm₁.table.hole hp).hBase < mm₁.swapBase :=
      hplace.resolve_right fun hworst => hworst.1 h₁.firstFit
    have hlow := UInt32.lt_iff_toNat_lt.mp hlow
    have hlen := UInt32.le_iff_toNat_le.mp hlen
    have hzero : cover (mm₁.table.extents (l₁ ++ hp :: l₂)) (mm₁.swapBase.toNat - 1) = 0 := by
      have hsum := hcover (mm₁.swapBase.toNat - 1)
      have := hg₁.gap (mm₁.swapBase.toNat - 1) (by omega)
      omega
    have hend := stop_le_of_cover_eq_zero hzero
      (List.mem_map_of_mem (show hp ∈ l₁ ++ hp :: l₂ by simp))
      (show (mm₁.table.extent hp).base ≤ _ from Nat.le_sub_one_of_lt hlow)
    rw [mem_range] at hx
    simp only [Extent.stop, HoleTable.extent] at hend
    rw [← hbase]
    omega
  · exact ⟨h₁, ⟨T, hg₁, fun x => le_refl _⟩, fun hne => absurd rfl hne⟩

/-! ### `swap_in` -/

/-- One round of `swap_in`: an image that is read comes to memory. -/
theorem Sorted.swapInRound (h : mm.Sorted live) (hg : mm.Ground live T)
    (hround : SwapInRound mm mm') : mm'.Sorted live ∧ ∃ T', mm'.Ground live T' := by
  have hfiled' := h.filed.swapInRound hg.territory hg.holds hg.fits hround
  have husers' := h.users.swapInRound hround
  have hset := hround.settings
  obtain ⟨-, T', hholds', hdrops⟩ :=
    swapInRound_holds hg.territory hg.holds h.filed.movable hround
  have hg' := hg.mono hholds' hset hdrops.le
  refine ⟨?_, T', hg'⟩
  cases hround with
  | relink pmp q =>
      refine ⟨?_, hfiled', husers', ?_, ?_⟩
      · intro p hp x hx
        rw [image_setLink] at hx
        rw [mpFlags_setLink, swapBase_of_settings hset]
        exact h.zoned p hp x hx
      · rw [← h.firstFit]
        cases pmp <;> rfl
      · intro hfd p
        rw [mpFlags_setLink]
        exact h.off ((swapFd_of_settings hset).symm.trans hfd) p
  | wait hok => exact (h.allocMem hg hok).1
  | @move mm₁ _ i newBase hi hok hne hmove =>
      obtain ⟨h₁, -, hlow⟩ := h.allocMem hg hok
      obtain ⟨table, -, rfl⟩ := swapInProc_ok hmove
      have hbase := swapBase_of_settings (allocMem_settings hok)
      refine ⟨?_, hfiled', husers', h₁.firstFit, ?_⟩
      · intro p hp x hx
        show mm₁.swapBase.toNat ≤ x ↔ _
        by_cases hpi : p = i
        · subst hpi
          -- The image goes to the block that `alloc_mem` found, which is in memory.
          rw [image_swappedIn_self, allocMem_imageSize hok] at hx
          have := hlow hne x hx
          rw [mproc_swappedIn_self, hbase]
          exact iff_of_false (by omega) Bool.false_ne_true
        · rw [image_swappedIn_of_ne mm₁ hpi] at hx
          rw [mproc_swappedIn_of_ne mm₁ hpi]
          exact h₁.zoned p hp x hx
      · intro hfd p
        by_cases hpi : p = i
        · rw [hpi, mproc_swappedIn_self]
        · rw [mproc_swappedIn_of_ne mm₁ hpi]
          exact h₁.off hfd p

/-- `swap_in` keeps the images sorted, since each of its rounds does. -/
theorem Sorted.swapIn (h : mm.Sorted live) (hg : mm.Ground live T) (hok : mm.swapIn = .ok mm') :
    mm'.Sorted live ∧ ∃ T', mm'.Ground live T' :=
  Run.invariant (P := fun a => a.Sorted live ∧ ∃ T', a.Ground live T') (swapInLoop_run hok)
    ⟨h, T, hg⟩ fun _ _ ⟨ha, _, hg₁⟩ hab => ha.swapInRound hg₁ hab

/-- `swap_inqueue` moves nothing. -/
theorem Sorted.swapInqueue {i : Fin nrProcs} (h : mm.Sorted live)
    (hi : (mm.mproc i).mpFlags.onswap) (hok : mm.swapInqueue i = .ok mm') : mm'.Sorted live := by
  obtain ⟨-, hset, himage⟩ := swapInqueue_frame hok
  have honswap := (swapInqueue_flags hok).2
  have hframe : mm'.outswap = mm.outswap ∧ mm'.worstFit = mm.worstFit := by
    rcases swapInqueue_ok hok with rfl | ⟨pmp, rfl⟩
    · exact ⟨rfl, rfl⟩
    · cases pmp <;> exact ⟨rfl, rfl⟩
  refine ⟨?_, h.filed.swapInqueue hi hok, h.users.frame hframe.1 fun p hp => ?_,
    hframe.2.trans h.firstFit, fun hfd p => ?_⟩
  · intro p hp x hx
    rw [himage] at hx
    rw [honswap, swapBase_of_settings hset]
    exact h.zoned p hp x hx
  · rwa [← honswap p]
  · rw [honswap]
    exact h.off ((swapFd_of_settings hset).symm.trans hfd) p

/-- The first loop of `swap_off` only writes links and flags of the queue, so that no image moves.
-/
theorem Sorted.queueSwapped {procs : List (Fin nrProcs)} (h : mm.Sorted live)
    (hg : mm.Ground live T) (hok : queueSwapped procs mm = .ok mm') :
    mm'.Sorted live ∧ mm'.Ground live T := by
  induction procs generalizing mm with
  | nil =>
      obtain rfl : mm = mm' := Except.ok.inj hok
      exact ⟨h, hg⟩
  | cons i procs ih =>
      rw [Mm.queueSwapped] at hok
      by_cases hi : (mm.mproc i).mpFlags.onswap
      · rw [if_pos hi] at hok
        obtain ⟨mm₁, hqueue, hok⟩ := exists_of_bind hok
        obtain ⟨htable, hset, himage⟩ := swapInqueue_frame hqueue
        have hg₁ := hg.mono (hg.holds.congr htable fun p _ => himage p) hset fun x => le_refl _
        exact ih (h.swapInqueue hi hqueue) hg₁ hok
      · rw [if_neg hi] at hok
        exact ih h hg hok

/-- A slot changes, and its new image is where its new flags say. -/
theorem Sorted.setProc {i : Fin nrProcs} {rmp : Mproc} {live' : Finset (Fin nrProcs)}
    (h : mm.Sorted live) (hfiled : (mm.setProc i rmp).Filed live')
    (hlive : ∀ p ∈ live', p ≠ i → p ∈ live)
    (honswap : rmp.mpFlags.onswap → (mm.mproc i).mpFlags.onswap)
    (hzone : i ∈ live' → ∀ x ∈ (mm.setProc i rmp).image i,
      mm.swapBase.toNat ≤ x ↔ rmp.mpFlags.onswap) : (mm.setProc i rmp).Sorted live' := by
  refine ⟨?_, hfiled, h.users.frame rfl fun p hp => ?_, h.firstFit, fun hfd p => ?_⟩
  · intro p hp x hx
    show mm.swapBase.toNat ≤ x ↔ _
    by_cases hpi : p = i
    · subst hpi
      rw [mproc_setProc_self]
      exact hzone hp x hx
    · rw [image, mproc_setProc_of_ne hpi] at hx
      rw [mproc_setProc_of_ne hpi]
      exact h.zoned p (hlive p hp hpi) x hx
  · by_cases hpi : p = i
    · subst hpi
      rw [mproc_setProc_self] at hp
      exact honswap hp
    · rwa [mproc_setProc_of_ne hpi] at hp
  · have hall := h.off hfd
    by_cases hpi : p = i
    · subst hpi
      rw [mproc_setProc_self]
      cases hon : rmp.mpFlags.onswap
      · rfl
      · exact absurd (honswap hon) (by rw [hall p]; exact Bool.false_ne_true)
    · rw [mproc_setProc_of_ne hpi]
      exact hall p

/-- With nobody on swap there is nothing to know about the file. -/
theorem Filed.of_off (h : mm.Filed live) (hmproc : mm'.mproc = mm.mproc)
    (hlog : mm'.swapIo = mm.swapIo) (hoff : ∀ p, (mm.mproc p).mpFlags.onswap = false) :
    mm'.Filed live := by
  have hnone : ∀ p, ¬ (mm'.mproc p).mpFlags.onswap := by
    intro p hp
    rw [hmproc, hoff p] at hp
    cases hp
  exact ⟨fun p => hmproc ▸ h.movable p, fun p hp => absurd hp (hnone p),
    fun p => hmproc ▸ h.queued p, fun p hp => absurd hp (hnone p), hlog ▸ h.reads⟩

/-- The swap area changes while nobody is on swap. -/
theorem Sorted.of_off (h : mm.Sorted live) (hmproc : mm'.mproc = mm.mproc)
    (hlog : mm'.swapIo = mm.swapIo) (hout : mm'.outswap = mm.outswap)
    (hfit : mm'.worstFit = mm.worstFit) (hbase : mm'.swapBase = mm.swapBase)
    (hoff : ∀ p, (mm.mproc p).mpFlags.onswap = false) : mm'.Sorted live := by
  refine ⟨?_, h.filed.of_off hmproc hlog hoff, h.users.frame hout fun p => hmproc ▸ id,
    hfit.trans h.firstFit, fun _ p => ?_⟩
  · intro p hp x hx
    rw [image, hmproc, ← image] at hx
    rw [hbase, hmproc]
    exact h.zoned p hp x hx
  · rw [hmproc]
    exact hoff p

end Mm

/-! ### Runs -/

namespace Sys

variable {s s' : Sys} {memory : List Extent}

/-- One call of a run in first fit, where `swap_off` may be called as well. -/
inductive Cycle : Sys → Sys → Prop
  /-- A call in which no area comes up that is not in the first 2^31 bytes of the swap file. -/
  | call {s s' : Sys} (hstep : Step s s') (hfit : s'.mm.worstFit = 0)
      (hfits : s'.mm.FileFits (cover s'.areas)) : Cycle s s'
  /-- `swap_off` with a swap file. When its `swap_in`, which leaves `mm₁`, took all processes back,
  there is no hole or the first one is in memory. -/
  | swapOff {s : Sys} {mm₀ mm₁ mm' : Mm} {r : Mm.SwapOffResult} (hon : s.mm.swapFd ≠ -1)
      (hqueue : Mm.queueSwapped Mm.userProcs s.mm = .ok mm₀) (hin : mm₀.swapIn = .ok mm₁)
      (hhead : mm₁.AllIn → ∀ i, mm₁.table.holeHead = some i →
        (mm₁.table.hole i).hBase < mm₁.swapBase)
      (hok : s.mm.swapOff = .ok (r, mm')) :
      Cycle s { s with
        mm := mm'
        areas := if mm'.swapFd = s.mm.swapFd then s.areas
          else s.areas.filter fun e => e.base < s.mm.swapBase.toNat }

/-- There is space for a swap area, and memory and the allocated blocks are below it. -/
structure Parted (memory blocks : List Extent) (mm : Mm) : Prop where
  maxsize : mm.swapMaxsize ≠ 0
  space : 0 < mm.swapBase.toNat ∧ mm.swapBase.toNat + mm.swapMaxsize.toNat ≤ 2 ^ 32
  memory : ∀ e ∈ memory, e.base < mm.swapBase.toNat
  blocks : ∀ x, cover blocks x ≠ 0 → x < mm.swapBase.toNat

/-- The invariant of these runs, over the chunks of memory. -/
structure Cycled (memory : List Extent) (s : Sys) : Prop where
  inv : s.Inv
  gap : s.Gap
  zero : cover s.areas 0 = 0
  fits : s.mm.FileFits (cover s.areas)
  parted : Parted memory s.blocks s.mm
  /-- Besides memory there is the swap area, if any. -/
  areas : s.areas = memory ∨
    s.mm.swapFd ≠ -1 ∧ ∃ n, s.areas = memory ++ [range s.mm.swapBase n]
  sorted : s.mm.Sorted s.live

/-- Where memory and the blocks are depends on `swap_base` and on the space behind it only. -/
theorem Parted.congr {blocks : List Extent} (h : Parted memory blocks mm)
    (hbase : mm'.swapBase = mm.swapBase) (hmax : mm'.swapMaxsize = mm.swapMaxsize) :
    Parted memory blocks mm' := by
  obtain ⟨hmaxsize, hspace, hmemory, hblocks⟩ := h
  exact ⟨hmax ▸ hmaxsize, hbase ▸ hmax ▸ hspace, hbase ▸ hmemory, hbase ▸ hblocks⟩

/-- The clicks of the holes and of the live images. -/
theorem Cycled.ground (h : Cycled memory s) : ∃ T, s.mm.Ground s.live T := by
  obtain ⟨hareas, T, hholds, hdrops⟩ := h.inv
  have hle : ∀ x, T x ≤ cover s.areas x := fun x =>
    (Nat.le_add_right _ _).trans (hdrops.le x)
  refine ⟨T, territory_of_drops hareas.territory hdrops, hholds, ?_, ?_, ?_⟩
  · intro x hx
    have := hle x
    exact h.fits x (by omega)
  · intro x hx
    have := h.gap x hx
    have := hle x
    omega
  · intro hfd x hx
    have := (hareas.spare hfd h.parted.maxsize).2.2 x (by have := hle x; omega)
    omega

/-- No call writes `swap_maxsize`. Only `mem_init` does. -/
theorem step_maxsize (hstep : Step s s') : s'.mm.swapMaxsize = s.mm.swapMaxsize := by
  have hkeep : ∀ {mm' : Mm}, mm'.settings = s.mm.settings →
      mm'.swapMaxsize = s.mm.swapMaxsize := fun hset => congrArg (fun r => r.2.2.2) hset
  cases hstep with
  | allocMem hok _ => exact hkeep (Mm.allocMem_settings hok)
  | freeMem _ hok => exact hkeep (Mm.freeMem_settings hok)
  | @exit p mm' _ hok =>
      have hset : mm'.settings = s.mm.settings := Mm.freeMem_settings hok
      exact @hkeep (mm'.setProc p _) hset
  | fork _ _ _ => rfl
  | setFlags _ _ _ => rfl
  | swapInqueue _ _ hok => exact hkeep (Mm.swapInqueue_frame hok).2.1
  | swapIn _ hok => exact hkeep (Mm.swapIn_settings hok)
  | swapOn hok =>
      rcases Mm.swapOn_ok hok with ⟨-, rfl⟩ | ⟨-, -, rfl⟩ | ⟨-, -, -, hfree⟩ | ⟨-, -, -, rfl⟩
      · rfl
      · rfl
      · exact congrArg (fun r => r.2.2.2) (Mm.freeMem_settings hfree)
      · rfl
  | doWorstFit m1i1 =>
      obtain ⟨w, hw⟩ := Mm.doWorstFit_eq s.mm m1i1
      rw [hw]

/-- Each call keeps the blocks in memory and the processes sorted. -/
theorem step_sorted (h : Cycled memory s) (hstep : Step s s') (hfit : s'.mm.worstFit = 0) :
    (∀ x, cover s'.blocks x ≠ 0 → x < s.mm.swapBase.toNat) ∧ s'.mm.Sorted s'.live := by
  obtain ⟨T, hg⟩ := h.ground
  have hsorted := h.sorted
  cases hstep with
  | @allocMem clicks b mm' hok _ =>
      obtain ⟨hsorted', -, hlow⟩ := hsorted.allocMem hg hok
      refine ⟨fun x hx => ?_, hsorted'⟩
      by_cases hb : b = noMem
      · have hx : cover (if b = noMem then s.blocks else range b clicks :: s.blocks) x ≠ 0 := hx
        rw [if_pos hb] at hx
        exact h.parted.blocks x hx
      · have hx : cover (if b = noMem then s.blocks else range b clicks :: s.blocks) x ≠ 0 := hx
        rw [if_neg hb, cover_cons] at hx
        by_cases hmem : x ∈ range b clicks
        · exact hlow hb x hmem
        · rw [if_neg hmem, Nat.zero_add] at hx
          exact h.parted.blocks x hx
  | @freeMem base clicks mm' _ hok =>
      obtain ⟨table, -, rfl⟩ := Mm.freeMem_ok hok
      refine ⟨fun x hx => h.parted.blocks x ?_, hsorted.congr rfl rfl rfl rfl rfl⟩
      have hx : cover (s.blocks.flatMap fun e => e.diff (range base clicks)) x ≠ 0 := hx
      rw [cover_flatMap_diff] at hx
      split_ifs at hx
      · exact absurd rfl hx
      · exact hx
  | @exit p mm' hp hok =>
      obtain ⟨table, -, rfl⟩ := Mm.freeMem_ok hok
      have hfreed : Mm.Sorted { s.mm with table := table } s.live :=
        hsorted.congr rfl rfl rfl rfl rfl
      refine ⟨h.parted.blocks, hfreed.setProc ?_ (fun q hq _ => Finset.mem_of_mem_erase hq) ?_ ?_⟩
      · exact hfreed.filed.clear rfl fun q hq hqp => Finset.mem_erase.mpr ⟨hqp, hq⟩
      · exact fun hon => absurd hon Bool.false_ne_true
      · exact fun hmem => absurd hmem (Finset.notMem_erase p s.live)
  | @fork p e segD segS hp he himage =>
      refine ⟨fun x hx => h.parted.blocks x ?_, hsorted.setProc ?_ ?_ ?_ ?_⟩
      · have hsum := cover_erase he x
        have hx : cover (s.blocks.erase e) x ≠ 0 := hx
        omega
      · exact hsorted.filed.clear rfl fun q hq _ => Finset.mem_insert_of_mem hq
      · exact fun q hq hqp => Finset.mem_of_mem_insert_of_ne hq hqp
      · exact fun hon => absurd hon Bool.false_ne_true
      · -- The image was a block, and blocks are in memory.
        intro _ x hx
        rw [himage] at hx
        have := h.parted.blocks x (Nat.pos_iff_ne_zero.mp (cover_pos_of_mem he hx))
        exact iff_of_false (by omega) Bool.false_ne_true
  | @setFlags p f hp honswap hswapin =>
      refine ⟨h.parted.blocks, hsorted.setProc ?_ (fun q hq _ => hq) ?_ ?_⟩
      · refine hsorted.filed.setFlags hp honswap fun hin => ?_
        rw [honswap]
        exact hsorted.filed.queued p (hswapin ▸ hin)
      · exact fun hon => honswap ▸ hon
      · intro _ x hx
        rw [Mm.image_setProc_flags] at hx
        show s.mm.swapBase.toNat ≤ x ↔ f.onswap = true
        rw [honswap]
        exact hsorted.zoned p hp x hx
  | swapInqueue _ honswap hok => exact ⟨h.parted.blocks, hsorted.swapInqueue honswap hok⟩
  | swapIn _ hok => exact ⟨h.parted.blocks, (hsorted.swapIn hg hok).1⟩
  | swapOn hok =>
      refine ⟨h.parted.blocks, ?_⟩
      rcases Mm.swapOn_ok hok with ⟨-, rfl⟩ | ⟨hfd, -, rfl⟩ | ⟨hfd, -, -, hfree⟩ | ⟨hfd, -, -, rfl⟩
      · exact hsorted
      · exact hsorted.of_off rfl rfl rfl rfl rfl (hsorted.off hfd)
      · obtain ⟨table, -, rfl⟩ := Mm.freeMem_ok hfree
        exact hsorted.of_off rfl rfl rfl rfl rfl (hsorted.off hfd)
      · exact hsorted.of_off rfl rfl rfl rfl rfl (hsorted.off hfd)
  | doWorstFit m1i1 =>
      obtain ⟨w, hw⟩ := Mm.doWorstFit_eq s.mm m1i1
      have hfit : (s.mm.doWorstFit m1i1).worstFit = 0 := hfit
      have hsame : (s.mm.doWorstFit m1i1).worstFit = s.mm.worstFit := by
        rw [hfit, hsorted.firstFit]
      refine ⟨h.parted.blocks, ?_⟩
      show (s.mm.doWorstFit m1i1).Sorted s.live
      rw [hw] at hsame ⊢
      exact hsorted.congr rfl rfl rfl rfl hsame

/-- A call keeps the invariant. -/
theorem step_cycled (h : Cycled memory s) (hstep : Step s s') (hfit : s'.mm.worstFit = 0)
    (hfits : s'.mm.FileFits (cover s'.areas)) : Cycled memory s' := by
  obtain ⟨hblocks, hsorted⟩ := step_sorted h hstep hfit
  have hmax := step_maxsize hstep
  obtain ⟨hbase, hareas⟩ := step_areas hstep
  have hparted := h.parted.congr hbase hmax
  refine ⟨step_inv h.inv hstep, step_gap h.gap hstep, step_zero h.inv hstep h.zero, hfits,
    ⟨hparted.maxsize, hparted.space, hparted.memory, fun x hx => hbase ▸ hblocks x hx⟩, ?_,
    hsorted⟩
  · rw [hbase]
    rcases hareas with ⟨hsame, hkeep⟩ | ⟨hfd, hfd', n, hnew⟩
    · rw [hsame]
      exact h.areas.imp id fun hon => ⟨(hkeep hon.1).1, hon.2⟩
    · -- `swap_on` adds its area only when there was none.
      refine Or.inr ⟨hfd', n, ?_⟩
      rw [hnew, h.areas.resolve_right fun hon => hon.1 hfd]

/-- The state in which `swap_off` asks whether all are in memory: nothing is moved out of its zone,
and the swap area is as before. -/
theorem Cycled.after (h : Cycled memory s) {mm₀ mm₁ : Mm}
    (hqueue : Mm.queueSwapped Mm.userProcs s.mm = .ok mm₀) (hin : mm₀.swapIn = .ok mm₁) :
    mm₁.settings = s.mm.settings ∧ Cycled memory { s with mm := mm₁ } := by
  obtain ⟨T, hg⟩ := h.ground
  obtain ⟨hsorted₀, hg₀⟩ := h.sorted.queueSwapped hg hqueue
  obtain ⟨hsorted₁, -⟩ := hsorted₀.swapIn hg₀ hin
  obtain ⟨htable, hset₀, himage, -⟩ :=
    Mm.queueSwapped_frame h.sorted.filed.movable h.sorted.filed.live hqueue
  have hset : mm₁.settings = s.mm.settings := (Mm.swapIn_settings hin).trans hset₀
  have hinv₀ : Inv { s with mm := mm₀ } := inv_frame h.inv htable hset₀ fun p _ => himage p
  -- The system as it is when `swap_off` has called `swap_in`.
  have hinv₁ : Inv { s with mm := mm₁ } :=
    inv_swapIn (s := { s with mm := mm₀ }) hinv₀ hsorted₀.filed.movable hin
  have hbase := Mm.swapBase_of_settings hset
  have hoff : mm₁.swapOffset = s.mm.swapOffset := congrArg (fun r => r.2.1) hset
  refine ⟨hset, hinv₁, fun x hx => h.gap x (hbase ▸ hx), h.zero, ?_,
    h.parted.congr hbase (congrArg (fun r => r.2.2.2) hset), ?_, hsorted₁⟩
  · intro x hx
    show mm₁.swapBase.toNat ≤ x → mm₁.swapOffset.toNat + (x + 1 - mm₁.swapBase.toNat) * _ ≤ _
    rw [hbase, hoff]
    exact h.fits x hx
  · show s.areas = memory ∨ mm₁.swapFd ≠ -1 ∧ ∃ n, s.areas = memory ++ [range mm₁.swapBase n]
    rw [hbase, Mm.swapFd_of_settings hset]
    exact h.areas

/-- What is in the swap area when nobody is on swap: holes only. -/
theorem Cycled.above (h : Cycled memory s)
    (hnone : ∀ p, (s.mm.mproc p).mpFlags.onswap = false) {x : Nat}
    (hx : s.mm.swapBase.toNat ≤ x) : s.mm.held s.live x = 0 ∧ cover s.blocks x = 0 := by
  constructor
  · by_contra hne
    obtain ⟨p, hp, hxp⟩ := Mm.exists_of_held_ne_zero hne
    have hon := (h.sorted.zoned p hp x hxp).mp hx
    rw [hnone p] at hon
    cases hon
  · by_contra hne
    have := h.parted.blocks x hne
    omega

/-- Without the swap area the clicks of memory still have one owner each. -/
theorem Cycled.ledger (h : Cycled memory s)
    (hnone : ∀ p, (s.mm.mproc p).mpFlags.onswap = false) {m : List Extent}
    (hrep : s.mm.table.Represents m) :
    Drops (cover (s.areas.filter fun e => e.base < s.mm.swapBase.toNat)) fun x =>
      cover (m.filter fun e => e.base < s.mm.swapBase.toNat) x + s.mm.held s.live x
        + cover s.blocks x := by
  obtain ⟨-, T, ⟨m', hrep', -, hcover⟩, lost, hlost, hsum⟩ := h.inv
  obtain rfl := hrep.unique hrep'
  have hsum : ∀ x, T x + cover s.blocks x + cover lost x = cover s.areas x := hsum
  have hgap : ∀ y, y + 1 = s.mm.swapBase.toNat → cover m y = 0 := by
    intro y hy
    have := h.gap y hy
    have := hsum y
    have := hcover y
    omega
  refine ⟨lost, hlost, fun x => ?_⟩
  have hx := hsum x
  have hsplit := hcover x
  rw [cover_filter_lt h.gap]
  simp only [cover_filter_lt hgap]
  by_cases hlt : x < s.mm.swapBase.toNat
  · rw [if_pos hlt, if_pos hlt]
    omega
  · obtain ⟨himage, hblock⟩ := h.above hnone (Nat.le_of_not_lt hlt)
    -- A lost block contains click 0, and this is in no area.
    have hlostx : cover lost x = 0 := by
      by_contra hne
      obtain ⟨e, he, hxe⟩ := cover_pos.mp (Nat.pos_of_ne_zero hne)
      have hzero : 0 ∈ e := by
        have := hlost e he
        rw [Extent.mem_def] at hxe ⊢
        omega
      have := cover_pos_of_mem he hzero
      have := h.zero
      have := hsum 0
      omega
    rw [if_neg hlt, if_neg hlt]
    omega

/-- The swap area is given up: its clicks belonged to nobody but the holes. -/
theorem Cycled.removed (h : Cycled memory s) (hall : s.mm.AllIn) (hremoves : s.mm.Removes mm') :
    Cycled memory { s with
      mm := mm', areas := s.areas.filter fun e => e.base < s.mm.swapBase.toNat } := by
  obtain ⟨hframe, hs, fs, hs', fs', hslots, hslots', -, hext, -⟩ := hremoves
  have hnone : ∀ p, (s.mm.mproc p).mpFlags.onswap = false := by
    intro p
    cases hp : (s.mm.mproc p).mpFlags.onswap
    · rfl
    · rw [← hp]
      exact hall p (h.sorted.users.onswap p hp)
  have hledger := h.ledger hnone ⟨hs, fs, hslots, rfl⟩
  rw [← hext] at hledger
  have hm' : Coalesced (mm'.table.extents hs') := by
    obtain ⟨-, T, ⟨m, hrep, hm, -⟩, -⟩ := h.inv
    obtain rfl := hrep.unique ⟨hs, fs, hslots, rfl⟩
    rw [hext]
    exact hm.sublist List.filter_sublist
  have hproc : mm'.mproc = s.mm.mproc := by rw [hframe]
  have hbase : mm'.swapBase = s.mm.swapBase := by rw [hframe]
  have hmax : mm'.swapMaxsize = s.mm.swapMaxsize := by rw [hframe]
  have hsorted : mm'.Sorted s.live := by
    rw [hframe]
    exact h.sorted.of_off rfl rfl rfl rfl rfl hnone
  have hheld : ∀ x, mm'.held s.live x = s.mm.held s.live x := by
    intro x
    refine Mm.held_congr (fun p _ => ?_) x
    rw [Mm.image, Mm.image, hproc]
  -- The areas that are left are those of memory.
  have hareas := cover_filter_lt h.gap
  have hle : ∀ x, cover (s.areas.filter fun e => e.base < s.mm.swapBase.toNat) x
      ≤ cover s.areas x := by
    intro x
    rw [hareas]
    split_ifs <;> omega
  have hbelow : ∀ x, cover (s.areas.filter fun e => e.base < s.mm.swapBase.toNat) x ≠ 0 →
      x + 1 < s.mm.swapBase.toNat := by
    intro x hx
    have hgap := h.gap x
    rw [hareas] at hx
    split_ifs at hx with hlt
    · omega
    · exact absurd rfl hx
  refine ⟨⟨⟨h.inv.areas.territory.mono hle, fun _ _ => ?_⟩, _,
    ⟨_, ⟨hs', fs', hslots', rfl⟩, hm', fun x => rfl⟩, ?_⟩, ?_,
    Nat.le_zero.mp ((hle 0).trans_eq h.zero), ?_, h.parted.congr hbase hmax, Or.inl ?_, hsorted⟩
  · show 0 < mm'.swapBase.toNat ∧ mm'.swapBase.toNat + mm'.swapMaxsize.toNat ≤ 2 ^ 32 ∧ _
    rw [hbase, hmax]
    exact ⟨h.parted.space.1, h.parted.space.2, hbelow⟩
  · simp only [hheld]
    exact hledger
  · intro x hx
    exact Nat.le_zero.mp (h.gap x (hbase ▸ hx) ▸ hle x)
  · intro x hx hzone
    have hzone : mm'.swapBase.toNat ≤ x := hzone
    rw [hbase] at hzone
    have := hbelow x hx
    omega
  -- Memory is below the boundary, and the swap area is all that goes.
  · have hkeep : memory.filter (fun e => e.base < s.mm.swapBase.toNat) = memory :=
      List.filter_eq_self.mpr fun e he => by simpa using h.parted.memory e he
    show s.areas.filter (fun e => e.base < s.mm.swapBase.toNat) = memory
    rcases h.areas with hsame | ⟨-, k, hsame⟩
    · rw [hsame, hkeep]
    · rw [hsame, List.filter_append, hkeep]
      simp [range]

/-- Click 0 is in no area, so that nothing is lost: each click of the areas has one owner. -/
theorem Cycled.owners (h : Cycled memory s) :
    ∃ m, s.mm.table.Represents m ∧ Coalesced m ∧ ∀ x,
      cover m x + s.mm.held s.live x + cover s.blocks x = cover s.areas x ∧
        cover s.areas x ≤ 1 := by
  obtain ⟨⟨hterr, -⟩, T, ⟨m, hrep, hm, hcover⟩, hdrops⟩ := h.inv
  refine ⟨m, hrep, hm, fun x => ⟨?_, hterr.le_one x⟩⟩
  rw [hcover x]
  exact congrFun (hdrops.eq_of_zero h.zero) x

/-- One call of such a run keeps the invariant. -/
theorem cycle_cycled (h : Cycled memory s) (hstep : Cycle s s') : Cycled memory s' := by
  cases hstep with
  | call hstep hfit hfits => exact step_cycled h hstep hfit hfits
  | @swapOff mm₀ mm₁ mm' r hon hqueue hin hhead hok =>
      obtain ⟨hset, h₁⟩ := h.after hqueue hin
      have hfd : mm₁.swapFd = s.mm.swapFd := Mm.swapFd_of_settings hset
      have hbase : mm₁.swapBase = s.mm.swapBase := Mm.swapBase_of_settings hset
      by_cases hall : mm₁.AllIn
      -- All processes are in memory, and the area is removed. Otherwise `swap_off` has failed.
      · obtain ⟨-, T, ⟨m, ⟨hs, fs, hslots, rfl⟩, hm, -⟩, -⟩ := h₁.inv
        obtain ⟨table, hrun, hremoves⟩ := Mm.removes_of_head hslots hm (hhead hall)
        have hrun : mm₁.table.removeSwapHole mm₁.swapBase ((nrHoles + 1) * nrHoles) none
            mm₁.table.holeHead = .ok table := hrun
        rw [Mm.swapOff_of_allIn hon hqueue hin hall, hrun] at hok
        obtain ⟨-, rfl⟩ := Prod.mk.inj (Except.ok.inj hok)
        have hgone := h₁.removed hall hremoves
        rw [if_neg (fun heq : (-1 : Int) = s.mm.swapFd => hon heq.symm), ← hbase]
        exact hgone
      · rw [Mm.swapOff_of_not_allIn hon hqueue hin hall] at hok
        obtain ⟨-, rfl⟩ := Prod.mk.inj (Except.ok.inj hok)
        rw [if_pos hfd]
        exact h₁

/-- What the other variables are after `mem_init`: nothing was swapped, `worst_fit` is 0, and memory
does not go up to the end of the address space. -/
structure Fresh (s : Sys) : Prop where
  cleared : s.Cleared
  firstFit : s.mm.worstFit = 0
  log : s.mm.swapIo = []
  maxsize : s.mm.swapMaxsize ≠ 0

/-- The state after `mem_init` satisfies the invariant of the cycles: there is no swap area, and
nobody is on swap. -/
theorem Fresh.cycled {chunks : List SysMem} (h : s.Fresh) (hchunks : Chunks chunks)
    (hboot : Booted chunks s) : Cycled (chunkAreas chunks) s := by
  obtain ⟨hclear, hfit, hlog, hmax⟩ := h
  obtain ⟨hinv, hgap⟩ := booted_inv hchunks hboot
  have hareas := hboot.areas_eq
  obtain ⟨mm₀, total, free, -, hfd₀, hok, hlive, hblocks, -⟩ := hboot
  have hfd : s.mm.swapFd = -1 := (Mm.memInit_swapFd hok).trans hfd₀
  obtain ⟨hpos, hspace, hbelow⟩ := hinv.areas.spare hfd hmax
  have hnone : ∀ p, (s.mm.mproc p).mpFlags.onswap = false := by
    intro p
    rw [hclear.flags p]
    rfl
  refine ⟨hinv, hgap, ?_, ?_, ⟨hmax, ⟨hpos, hspace⟩, ?_, ?_⟩, Or.inl hareas, ?_, ?_, ?_, hfit, ?_⟩
  · rw [hareas]
    by_contra hne
    obtain ⟨r, hr, hxr⟩ := exists_chunk hne
    have := hchunks.base_ne r hr
    exact this (UInt32.toNat_inj.mp (Nat.le_zero.mp hxr.1))
  · intro x hx hzone
    have := hbelow x hx
    omega
  · intro e he
    obtain ⟨r, hr, rfl⟩ := List.mem_map.mp he
    -- The chunk is not empty, and its first click is below `swap_base`.
    have hsize : 0 < r.size.toNat :=
      Nat.pos_of_ne_zero fun h0 => hchunks.size_ne r hr (UInt32.toNat_inj.mp h0)
    have hmem : r.base.toNat ∈ range r.base r.size := by
      rw [mem_range]
      omega
    have := hbelow r.base.toNat (by
      rw [hareas]
      exact Nat.pos_iff_ne_zero.mp (cover_pos_of_mem he hmem))
    show r.base.toNat < _
    omega
  · intro x hx
    rw [hblocks] at hx
    exact absurd rfl hx
  · intro p hp
    rw [hlive] at hp
    exact absurd hp (Finset.notMem_empty p)
  · have hfiled : ∀ p, ¬ ((s.mm.mproc p).mpFlags.swappable ∨ (s.mm.mproc p).mpFlags.swapin) := by
      intro p
      rw [hclear.flags p]
      simp [MpFlags.none, MpFlags.swappable, MpFlags.blocked]
    refine ⟨fun p hp => absurd hp (hfiled p), fun p hp => ?_,
      fun p hp => absurd (Or.inr hp) (hfiled p), fun p hp => ?_, hlog ▸ readsBack_nil⟩
    · rw [hnone p] at hp
      cases hp
    · rw [hnone p] at hp
      cases hp
  · refine ⟨hclear.outswap, fun p hp => ?_⟩
    -- Nobody is on swap at the start, and the other conditions are about such processes.
    rw [hnone p] at hp
    cases hp
  · exact fun _ p => hnone p

end Sys

/-- In a run from `mem_init` in first fit, with any number of calls of `swap_on` and `swap_off`, the
areas are memory and, while there is a swap file, at most one swap area. Each click of them is in
one hole, in the image of one live process or in one block. The blocks are in memory, an image is in
the swap area exactly when its process is on swap, without a swap file nobody is, and each image
that was read from a swap file is the one that was written there for the process. -/
theorem sorted_of_cycles (chunks : List SysMem) (hchunks : Chunks chunks) (s₀ s : Sys)
    (hboot : Booted chunks s₀) (hfresh : s₀.Fresh)
    (hrun : Relation.ReflTransGen Sys.Cycle s₀ s) :
    (s.areas = chunkAreas chunks ∨
        s.mm.swapFd ≠ -1 ∧ ∃ n, s.areas = chunkAreas chunks ++ [range s.mm.swapBase n]) ∧
      (∃ m, s.mm.table.Represents m ∧ Coalesced m ∧ ∀ x,
        cover m x + s.mm.held s.live x + cover s.blocks x = cover s.areas x ∧
          cover s.areas x ≤ 1) ∧
      (∀ b ∈ s.blocks, ∀ x ∈ b, x < s.mm.swapBase.toNat) ∧
      (∀ p ∈ s.live, ∀ x ∈ s.mm.image p,
        s.mm.swapBase.toNat ≤ x ↔ (s.mm.mproc p).mpFlags.onswap) ∧
      (s.mm.swapFd = -1 → ∀ p, (s.mm.mproc p).mpFlags.onswap = false) ∧
      ReadsBack s.mm.swapIo := by
  have h := Run.invariant hrun (hfresh.cycled hchunks hboot) fun _ _ => Sys.cycle_cycled
  refine ⟨h.areas, h.owners, fun b hb x hx => ?_, h.sorted.zoned, h.sorted.off,
    h.sorted.filed.reads⟩
  exact h.parted.blocks x (Nat.pos_iff_ne_zero.mp (cover_pos_of_mem hb hx))

end

/-! ### Swapping on and off -/

section
attribute [local instance] tinyConfig

/-- The system with eight clicks of swap. -/
def tinyOn : Sys where
  mm := match tinyBoot.mm.swapOn 3 0 0x8000 with
    | .ok r => r.2
    | .error _ => tinyMm
  live := ∅
  blocks := []
  areas := [range 4 4, range 16 6, range 23 8]

/-- The system after `swap_off`. -/
def tinyOff : Sys where
  mm := match tinyOn.mm.swapOff with
    | .ok r => r.2
    | .error _ => tinyMm
  live := ∅
  blocks := []
  areas := [range 4 4, range 16 6]

/-- Nothing was swapped yet in the small system. -/
theorem tinyBoot_fresh : tinyBoot.Fresh :=
  ⟨⟨by decide, rfl, by decide⟩, rfl, rfl, by decide⟩

/-- `swap_on`, and then `swap_off`, with all of memory free. -/
theorem tinyOff_reached : Relation.ReflTransGen Sys.Cycle tinyBoot tinyOff := by
  have hfits : tinyOn.mm.FileFits (cover tinyOn.areas) := by
    intro x hx hbase
    have hlt : x < 31 := by
      simp only [tinyOn, cover_cons, cover_nil, mem_range, UInt32.reduceToNat] at hx
      split_ifs at hx <;> omega
    show 0 + (x + 1 - 23) * 2 ^ 12 ≤ 2 ^ 31
    omega
  have hon : Sys.Cycle tinyBoot tinyOn :=
    .call (@Sys.Step.swapOn _ tinyBoot 3 0 0x8000 .unset _ rfl) rfl hfits
  have hoff : Sys.Cycle tinyOn tinyOff :=
    @Sys.Cycle.swapOff _ tinyOn tinyOn.mm tinyOn.mm tinyOff.mm .ok (by decide) rfl rfl
      (fun _ i hi => by cases hi; decide) rfl
  exact .head hon (.single hoff)

/-- The swap area came and went. -/
theorem sorted_of_cycles_tiny :
    tinyOff.mm.swapFd = -1 ∧ ∀ p, (tinyOff.mm.mproc p).mpFlags.onswap = false := by
  have h := sorted_of_cycles tinyChunks tinyChunks_ok tinyBoot tinyOff tinyBoot_booted
    tinyBoot_fresh tinyOff_reached
  exact ⟨rfl, h.2.2.2.2.1 rfl⟩

end

end Soi.Pamiec
