import Soi.Lib.Run
import Soi.Proofs.Pamiec.Calls

/-!
# `Soi.Proofs.Pamiec.Ledger`: every click has one owner, in every run

`Sys.Inv` is the invariant of the runs of `Sys.Step`. `ledger` states that the holes, the images
of the live processes and the allocated blocks cover the areas, each click once; only a block
at address 0 can be missing. `areas` states where the areas can be: before `swap_on` they end
below `swap_base`. `Sys.Gap` is the second invariant: the click below the swap area belongs to
no area.

`step_inv` has one case for each call, and `step_gap` is the same for `Sys.Gap`. `Sys.AreasSince`
says which areas there are after a run: those at its start, and one more when a call of `swap_on`
has opened the swap file.
-/

set_option autoImplicit false

namespace Soi.Pamiec

open Soi.Lib

/-- The holes and the live images are a territory. -/
theorem territory_of_drops {T : Nat → Nat} {blocks areas : List Extent}
    (hareas : Territory (cover areas))
    (hdrops : Drops (cover areas) fun x => T x + cover blocks x) : Territory T :=
  hareas.mono fun x => le_trans (Nat.le_add_right _ _) (hdrops.le x)

/-- What the memory manager loses, is lost for the areas too. -/
theorem drops_add {T T' : Nat → Nat} {blocks areas : List Extent} (h : Drops T T')
    (hdrops : Drops (cover areas) fun x => T x + cover blocks x) :
    Drops (cover areas) fun x => T' x + cover blocks x := by
  refine hdrops.trans ?_
  obtain ⟨lost, hlost, hcover⟩ := h
  refine ⟨lost, hlost, ?_⟩
  intro x
  simp only [← hcover x]
  omega

section
variable [MmConfig] {mm mm' : Mm} {live : Finset (Fin nrProcs)} {T : Nat → Nat}

namespace Mm

/-! ### The variables that only `swap_on` changes -/

/-- The variables of the swap area. -/
def settings (mm : Mm) : Int × UInt32 × UInt32 × UInt32 :=
  (mm.swapFd, mm.swapOffset, mm.swapBase, mm.swapMaxsize)

/-- A write of a link is none of the variables of the swap area. -/
@[simp] theorem settings_setLink (pmp p : Option (Fin nrProcs)) :
    (mm.setLink pmp p).settings = mm.settings := by
  cases pmp <;> rfl

/-- A process that is swapped out changes the hole table, the process table and the file, but not
where the swap area is. -/
@[simp] theorem settings_swappedOut (i : Fin nrProcs) (newBase : UInt32)
    (table : HoleTable nrHoles) : (mm.swappedOut i newBase table).settings = mm.settings := by
  simp only [swappedOut, setProc, lseek, writeSeg, settings]

/-- The same for a process that is swapped in. -/
@[simp] theorem settings_swappedIn (i : Fin nrProcs) (newBase size : UInt32)
    (table : HoleTable nrHoles) : (mm.swappedIn i newBase size table).settings = mm.settings := by
  simp only [swappedIn, setProc, lseek, readSeg, settings]

/-- Any number of processes that are swapped out change nothing about the swap area. -/
theorem SwapsOut.settings (h : SwapsOut mm mm') : mm'.settings = mm.settings := by
  refine h.keeps (P := fun a => a.settings = mm.settings) rfl ?_
  intro a i newBase table ha _
  rw [settings_swappedOut, ha]

/-- `alloc_mem` swaps processes out and carves a hole. It leaves the variables of the swap area
alone. -/
theorem allocMem_settings {clicks b : UInt32} (hok : mm.allocMem clicks = .ok (b, mm')) :
    mm'.settings = mm.settings := by
  obtain ⟨mm₁, hswaps, hcases⟩ := allocLoop_cases hok
  rw [← hswaps.settings]
  rcases hcases with ⟨_, _, _, _, _, rfl⟩ | ⟨_, _, _, rfl⟩ <;> rfl

/-- `free_mem` writes the hole table only. -/
theorem freeMem_settings {base clicks : UInt32} (hok : mm.freeMem base clicks = .ok mm') :
    mm'.settings = mm.settings := by
  obtain ⟨table, -, rfl⟩ := freeMem_ok hok
  rfl

/-- A round of `swap_in` writes a link, waits, or moves a process. None of these changes where the
swap area is. -/
theorem SwapInRound.settings (h : SwapInRound mm mm') : mm'.settings = mm.settings := by
  cases h with
  | relink pmp q => exact settings_setLink pmp q
  | wait hok => exact allocMem_settings hok
  | move _ hok _ hmove =>
      obtain ⟨table, -, rfl⟩ := swapInProc_ok hmove
      rw [settings_swappedIn, allocMem_settings hok]

/-- `swap_in` leaves the variables of the swap area alone, since each of its rounds does. -/
theorem swapIn_settings (hok : mm.swapIn = .ok mm') : mm'.settings = mm.settings :=
  Run.invariant (P := fun a => a.settings = mm.settings) (swapInLoop_run hok) rfl
    fun _ _ ha hround => hround.settings.trans ha

/-! ### `swap_inqueue` -/

/-- `swap_inqueue` writes two links and sets the flag of the process. -/
theorem swapInqueue_ok {i : Fin nrProcs} (hok : mm.swapInqueue i = .ok mm') :
    mm' = mm ∨ ∃ pmp, mm' =
      (let mm₁ := (mm.setLink pmp (some i)).setLink (some i) none
      mm₁.setProc i { mm₁.mproc i with
        mpFlags := { (mm₁.mproc i).mpFlags with swapin := true } }) := by
  rw [swapInqueue] at hok
  split at hok
  · exact Or.inl (Except.ok.inj hok).symm
  · obtain ⟨pmp, -, hok⟩ := exists_of_bind hok
    exact Or.inr ⟨pmp, (Except.ok.inj hok).symm⟩

/-- An image is where the segments are, so that flags do not move it. -/
theorem image_setProc_flags (i p : Fin nrProcs) (f : MpFlags) :
    (mm.setProc i { mm.mproc i with mpFlags := f }).image p = mm.image p := by
  by_cases h : p = i
  · subst h
    simp [image, Mproc.imageSize]
  · rw [image, image, mproc_setProc_of_ne h]

/-- `swap_inqueue` changes the queue only: the hole table, the swap area and all images stay. -/
theorem swapInqueue_frame {i : Fin nrProcs} (hok : mm.swapInqueue i = .ok mm') :
    mm'.table = mm.table ∧ mm'.settings = mm.settings ∧ ∀ p, mm'.image p = mm.image p := by
  rcases swapInqueue_ok hok with rfl | ⟨pmp, rfl⟩
  · exact ⟨rfl, rfl, fun _ => rfl⟩
  · refine ⟨?_, ?_, ?_⟩
    · rw [table_setProc, table_setLink, table_setLink]
    · show ((mm.setLink pmp (some i)).setLink (some i) none).settings = mm.settings
      rw [settings_setLink, settings_setLink]
    · intro p
      rw [image_setProc_flags, image_setLink, image_setLink]

/-- `do_worst_fit` changes nothing but the mode. -/
theorem doWorstFit_eq (mm : Mm) (m1i1 : Int) :
    ∃ w, mm.doWorstFit m1i1 = { mm with worstFit := w } := by
  rw [doWorstFit]
  split_ifs
  · exact ⟨m1i1, rfl⟩
  · exact ⟨mm.worstFit, rfl⟩

/-! ### `swap_on` -/

/-- The size of the swap area is cut down to the maximum. -/
theorem swapClicks_le (mm : Mm) (size : UInt32) :
    (mm.swapClicks size).toNat ≤ mm.swapMaxsize.toNat := by
  rw [swapClicks]
  split_ifs with hlt
  · exact le_refl _
  · exact UInt32.le_iff_toNat_le.mp (UInt32.not_lt.mp hlt)

/-- The swap area has as many clicks as the part of the file, but at most `swap_maxsize`. -/
theorem swapClicks_eq_min (mm : Mm) (size : UInt32) :
    mm.swapClicks size = min (size >>> UInt32.ofNat clickShift) mm.swapMaxsize := by
  show _ = if size >>> UInt32.ofNat clickShift ≤ mm.swapMaxsize then _ else _
  rw [swapClicks]
  by_cases hlt : mm.swapMaxsize < size >>> UInt32.ofNat clickShift
  · rw [if_pos hlt, if_neg (UInt32.not_le.mpr hlt)]
  · rw [if_neg hlt, if_pos (UInt32.not_lt.mp hlt)]

/-- A swap area with a click in it needs space for it. -/
theorem swapMaxsize_ne_zero {size : UInt32} (h : mm.swapClicks size ≠ 0) :
    mm.swapMaxsize ≠ 0 := by
  intro h0
  have hle := mm.swapClicks_le size
  rw [h0, UInt32.toNat_zero] at hle
  exact h (UInt32.toNat_inj.mp (Nat.eq_zero_of_le_zero hle))

/-- `swap_on` does nothing when there is a swap file already. Otherwise it cannot open the file,
it frees the swap area, or the area has no whole click. -/
theorem swapOn_ok {fd : Int} {offset size : UInt32} {r : SwapOnResult}
    (hok : mm.swapOn fd offset size = .ok (r, mm')) :
    (mm.swapFd ≠ -1 ∧ mm' = mm) ∨
      (mm.swapFd = -1 ∧ fd < 0 ∧ mm' = { mm with swapFd := fd }) ∨
      (mm.swapFd = -1 ∧ 0 ≤ fd ∧ mm.swapClicks size ≠ 0 ∧
        (mm.openSwap fd offset).freeMem mm.swapBase (mm.swapClicks size) = .ok mm') ∨
      (mm.swapFd = -1 ∧ 0 ≤ fd ∧ mm.swapClicks size = 0 ∧ mm' = mm.openSwap fd offset) := by
  rw [swapOn] at hok
  dsimp only at hok
  split_ifs at hok with hfd hneg hsize
  · cases hok
    exact Or.inl ⟨hfd, rfl⟩
  · cases hok
    exact Or.inr (Or.inl ⟨not_not.mp hfd, hneg, rfl⟩)
  · have hne := UInt32.pos_iff_ne_zero.mp hsize
    obtain ⟨mm₁, hfree, hok⟩ := exists_of_bind hok
    obtain rfl : mm₁ = mm' := (Prod.mk.inj (Except.ok.inj hok)).2
    exact Or.inr (Or.inr (Or.inl ⟨not_not.mp hfd, not_lt.mp hneg, hne, hfree⟩))
  · have hzero : mm.swapClicks size = 0 := by
      by_contra hne
      exact hsize (UInt32.pos_iff_ne_zero.mpr hne)
    cases hok
    exact Or.inr (Or.inr (Or.inr ⟨not_not.mp hfd, not_lt.mp hneg, hzero, rfl⟩))

/-- Either `swap_on` adds no area, and the other variables of the swap area are as before, or it has
opened the file. -/
theorem swapOn_settings {fd : Int} {offset size : UInt32} {r : SwapOnResult}
    (hok : mm.swapOn fd offset size = .ok (r, mm')) :
    (mm.swapArea fd size = [] ∧ ((mm.swapFd ≠ -1 ∧ mm'.settings = mm.settings) ∨
        (mm.swapFd = -1 ∧ fd < 0 ∧
          mm'.settings = (fd, mm.swapOffset, mm.swapBase, mm.swapMaxsize)))) ∨
      (mm.swapFd = -1 ∧ 0 ≤ fd ∧ mm'.settings = (fd, offset, mm.swapBase, mm.swapMaxsize)) := by
  rcases swapOn_ok hok with ⟨hfd, rfl⟩ | ⟨hfd, hneg, rfl⟩ | ⟨hfd, hpos, -, hfree⟩ |
    ⟨hfd, hpos, -, rfl⟩
  · exact Or.inl ⟨if_neg fun hall => hfd hall.1, Or.inl ⟨hfd, rfl⟩⟩
  · exact Or.inl ⟨if_neg fun hall => by omega, Or.inr ⟨hfd, hneg, rfl⟩⟩
  · exact Or.inr ⟨hfd, hpos, freeMem_settings hfree⟩
  · exact Or.inr ⟨hfd, hpos, rfl⟩

/-- The area that `swap_on` adds when it has opened the file: none when not even one click fits. -/
theorem swapArea_of_open {fd : Int} {size : UInt32} (hfd : mm.swapFd = -1) (hfd' : 0 ≤ fd) :
    mm.swapArea fd size = if mm.swapClicks size = 0 then []
      else [range mm.swapBase (mm.swapClicks size)] := by
  rw [swapArea]
  by_cases hsize : mm.swapClicks size = 0
  · rw [if_neg fun hall => hall.2.2 hsize, if_pos hsize]
  · rw [if_pos ⟨hfd, hfd', hsize⟩, if_neg hsize]

end Mm

/-! ### The invariant -/

/-- Where the areas can be. -/
structure AreasFit (areas : List Extent) (mm : Mm) : Prop where
  territory : Territory (cover areas)
  /-- As long as there is no swap area, there is space for it, at least one click above the
  other areas. -/
  spare : mm.swapFd = -1 → mm.swapMaxsize ≠ 0 → 0 < mm.swapBase.toNat ∧
    mm.swapBase.toNat + mm.swapMaxsize.toNat ≤ 2 ^ 32 ∧
    ∀ x, cover areas x ≠ 0 → x + 1 < mm.swapBase.toNat

/-- Where the areas can be depends on the variables of the swap area only. -/
theorem AreasFit.congr {areas : List Extent} (h : AreasFit areas mm)
    (hset : mm'.settings = mm.settings) : AreasFit areas mm' := by
  simp only [Mm.settings, Prod.mk.injEq] at hset
  obtain ⟨hfd, -, hbase, hmax⟩ := hset
  obtain ⟨hterr, hspare⟩ := h
  exact ⟨hterr, hfd ▸ hbase ▸ hmax ▸ hspare⟩

namespace Sys

variable {s s' : Sys}

/-- The invariant of the runs. -/
structure Inv (s : Sys) : Prop where
  areas : AreasFit s.areas s.mm
  /-- Each click of the areas is in a hole, in the image of a live process or in an allocated
  block, or it is lost. -/
  ledger : ∃ T, s.mm.Holds s.live T ∧ Drops (cover s.areas) fun x => T x + cover s.blocks x

/-- The holes and the images of the live processes are a territory. -/
theorem Inv.territory (h : s.Inv) {m : List Extent} (hrep : s.mm.table.Represents m) :
    Territory fun x => cover m x + s.mm.held s.live x := by
  obtain ⟨hareas, T, ⟨m', hrep', -, hcover⟩, hdrops⟩ := h
  obtain rfl := hrep.unique hrep'
  rw [funext hcover]
  exact territory_of_drops hareas.territory hdrops

/-- `alloc_mem` of a block, or of nothing. -/
theorem inv_allocMem {clicks b : UInt32} (h : s.Inv) (hok : s.mm.allocMem clicks = .ok (b, mm'))
    (hmoves : s.mm.Moves mm' s.live) :
    Inv { s with
      mm := mm'
      blocks := if b = noMem then s.blocks else range b clicks :: s.blocks } := by
  obtain ⟨hareas, T, hholds, hdrops⟩ := h
  have hT := territory_of_drops hareas.territory hdrops
  refine ⟨hareas.congr (Mm.allocMem_settings hok), ?_⟩
  by_cases hb : b = noMem
  · subst hb
    obtain ⟨T', hholds', hdrops'⟩ := Mm.allocMem_noMem hT hholds hmoves hok
    refine ⟨T', hholds', ?_⟩
    rw [if_pos rfl]
    exact drops_add hdrops' hdrops
  · rcases Mm.allocMem_holds hT hholds hmoves hok with ⟨hb', -⟩ | ⟨T', hholds', hT'⟩
    · exact absurd hb' hb
    · refine ⟨T', hholds', ?_⟩
      rw [if_neg hb]
      -- The caller has what the memory manager lost.
      have hsame : (fun x => T' x + cover (range b clicks :: s.blocks) x)
          = fun x => T x + cover s.blocks x := by
        funext x
        rw [cover_cons, ← hT' x]
        omega
      rwa [hsame]

/-- `free_mem` of an allocated range. -/
theorem inv_freeMem {base clicks : UInt32} (h : s.Inv)
    (howned : ∀ x ∈ range base clicks, 0 < cover s.blocks x)
    (hok : s.mm.freeMem base clicks = .ok mm') :
    Inv { s with mm := mm', blocks := s.blocks.flatMap fun e => e.diff (range base clicks) } := by
  obtain ⟨hareas, T, hholds, hdrops⟩ := h
  -- The clicks of the range go from the blocks to the memory manager.
  let T' := fun x => T x + if x ∈ range base clicks then 1 else 0
  have hsame : (fun x => T' x + cover (s.blocks.flatMap fun e => e.diff (range base clicks)) x)
      = fun x => T x + cover s.blocks x := by
    funext x
    show T x + (if x ∈ range base clicks then 1 else 0) + _ = _
    rw [cover_flatMap_diff]
    by_cases hx : x ∈ range base clicks
    · -- No click is in two blocks.
      have hpos := howned x hx
      have hle : T x + cover s.blocks x ≤ 1 := (hdrops.le x).trans (hareas.territory.le_one x)
      rw [if_pos hx, if_pos hx]
      omega
    · rw [if_neg hx, if_neg hx, Nat.add_zero]
  have hdrops' : Drops (cover s.areas) fun x =>
      T' x + cover (s.blocks.flatMap fun e => e.diff (range base clicks)) x := by
    rwa [hsame]
  exact ⟨hareas.congr (Mm.freeMem_settings hok), T',
    Mm.freeMem_holds (territory_of_drops hareas.territory hdrops') hholds (fun x => rfl) hok,
    hdrops'⟩

/-- A process that dies gives its image back. -/
theorem inv_exit {p : Fin nrProcs} (h : s.Inv) (hp : p ∈ s.live)
    (hok : s.mm.freeMem (s.mm.mproc p).segD.memPhys (s.mm.mproc p).imageSize = .ok mm') :
    Inv { s with
      mm := mm'.setProc p { mm'.mproc p with mpFlags := MpFlags.none }
      live := s.live.erase p } := by
  obtain ⟨hareas, T, ⟨m, hrep, hm, hcover⟩, hdrops⟩ := h
  have hT := territory_of_drops hareas.territory hdrops
  -- Without the process its image belongs to nobody, and then `free_mem` makes it a hole.
  have hrest : s.mm.Holds (s.live.erase p) fun x => cover m x + s.mm.held (s.live.erase p) x :=
    ⟨m, hrep, hm, fun x => rfl⟩
  have hfreed : mm'.Holds (s.live.erase p) T := by
    refine Mm.freeMem_holds hT hrest ?_ hok
    intro x
    have := Mm.held_erase s.mm hp x
    rw [Mm.image] at this
    rw [← hcover x, ← this]
    omega
  have hset : mm'.settings = s.mm.settings := Mm.freeMem_settings hok
  refine ⟨hareas.congr hset, T, hfreed.congr rfl ?_, hdrops⟩
  intro q hq
  rw [Mm.image_setProc_flags]

/-- A block becomes the image of a new process. -/
theorem inv_fork {p : Fin nrProcs} {e : Extent} {segD segS : MemMap} (h : s.Inv)
    (hp : p ∉ s.live) (he : e ∈ s.blocks)
    (himage : (s.mm.setProc p { s.mm.mproc p with segD, segS, mpFlags := .none }).image p = e) :
    Inv { s with
      mm := s.mm.setProc p { s.mm.mproc p with segD, segS, mpFlags := .none }
      live := insert p s.live
      blocks := s.blocks.erase e } := by
  obtain ⟨hareas, T, ⟨m, hrep, hm, hcover⟩, hdrops⟩ := h
  set mm' := s.mm.setProc p { s.mm.mproc p with segD, segS, mpFlags := .none } with hmm'
  refine ⟨hareas.congr rfl, fun x => T x + if x ∈ e then 1 else 0,
    ⟨m, hrep, hm, ?_⟩, ?_⟩
  · intro x
    have hold : mm'.held s.live x = s.mm.held s.live x := by
      refine Mm.held_congr ?_ x
      intro q hq
      have hne : q ≠ p := ne_of_mem_of_not_mem hq hp
      rw [hmm', Mm.image, Mm.image, Mm.mproc_setProc_of_ne hne]
    simp only [Mm.held_insert mm' hp, hold, himage, ← hcover x]
    omega
  · have hsame : (fun x => T x + (if x ∈ e then 1 else 0) + cover (s.blocks.erase e) x)
        = fun x => T x + cover s.blocks x := by
      funext x
      rw [← cover_erase he x]
      omega
    rwa [hsame]

/-- A call that leaves the table, the variables of the swap area and the images alone. -/
theorem inv_frame (h : s.Inv) (htable : mm'.table = s.mm.table)
    (hset : mm'.settings = s.mm.settings) (himage : ∀ p ∈ s.live, mm'.image p = s.mm.image p) :
    Inv { s with mm := mm' } := by
  obtain ⟨hareas, T, hholds, hdrops⟩ := h
  exact ⟨hareas.congr hset, T, hholds.congr htable himage, hdrops⟩

/-- `swap_in` moves images between the holes. What it loses are blocks at address 0. -/
theorem inv_swapIn (h : s.Inv) (hmov : s.mm.Movable s.live) (hok : s.mm.swapIn = .ok mm') :
    Inv { s with mm := mm' } := by
  obtain ⟨hareas, T, hholds, hdrops⟩ := h
  obtain ⟨-, T', hholds', hdrops'⟩ :=
    Mm.swapIn_holds (territory_of_drops hareas.territory hdrops) hholds hmov hok
  exact ⟨hareas.congr (Mm.swapIn_settings hok), T', hholds', drops_add hdrops' hdrops⟩

/-- `swap_on` with a file that could be opened, and an area that is not empty. -/
theorem inv_swapArea {fd : Int} {offset size : UInt32} (h : s.Inv) (hfd : s.mm.swapFd = -1)
    (hfd' : 0 ≤ fd) (hsize : s.mm.swapClicks size ≠ 0)
    (hok : (s.mm.openSwap fd offset).freeMem s.mm.swapBase (s.mm.swapClicks size) = .ok mm') :
    Inv { s with mm := mm', areas := s.areas ++ [range s.mm.swapBase (s.mm.swapClicks size)] } := by
  obtain ⟨⟨hterr, hspare⟩, T, hholds, hdrops⟩ := h
  set area := range s.mm.swapBase (s.mm.swapClicks size) with harea
  -- `swap_on` cuts the size down to the maximum, so the area fits into the spare space.
  have hlen := s.mm.swapClicks_le size
  obtain ⟨hpos, hstop, hbelow⟩ := hspare hfd (Mm.swapMaxsize_ne_zero hsize)
  have hmem : ∀ x, x ∈ area ↔ s.mm.swapBase.toNat ≤ x ∧
      x < s.mm.swapBase.toNat + (s.mm.swapClicks size).toNat := fun x => Iff.rfl
  have hcover : ∀ x, cover (s.areas ++ [area]) x
      = cover s.areas x + if x ∈ area then 1 else 0 := fun x => by
    rw [cover_append, cover_cons, cover_nil, Nat.add_zero]
  have hterr' : Territory (cover (s.areas ++ [area])) := by
    refine ⟨?_, ?_, s.mm.swapBase.toNat - 1, ?_, ?_⟩
    · intro x
      rw [hcover]
      split_ifs with hx
      · have : cover s.areas x = 0 := by
          by_contra h0
          have := hbelow x h0
          have := ((hmem x).mp hx).1
          omega
        omega
      · exact hterr.le_one x
    · intro x hx
      rw [hcover] at hx
      split_ifs at hx with hxa
      · have := ((hmem x).mp hxa).2
        omega
      · exact hterr.lt x hx
    · have := s.mm.swapBase.toNat_lt
      omega
    · -- The click between memory and the swap area.
      rw [hcover, if_neg (by rw [hmem]; omega)]
      by_contra hne
      have := hbelow _ hne
      omega
  have hset : mm'.settings = (s.mm.openSwap fd offset).settings := Mm.freeMem_settings hok
  simp only [Mm.settings, Prod.mk.injEq] at hset
  have hfd₁ : mm'.swapFd = fd := hset.1
  refine ⟨⟨hterr', ?_⟩, fun x => T x + if x ∈ area then 1 else 0, ?_, ?_⟩
  · intro hfd₂
    rw [hfd₁] at hfd₂
    omega
  · have hopen : (s.mm.openSwap fd offset).Holds s.live T := hholds.congr rfl fun _ _ => rfl
    refine Mm.freeMem_holds (hterr'.mono fun x => ?_) hopen (fun x => rfl) hok
    have hle : T x + cover s.blocks x ≤ cover s.areas x := hdrops.le x
    rw [hcover]
    omega
  · obtain ⟨lost, hlost, hsum⟩ := hdrops
    refine ⟨lost, hlost, ?_⟩
    intro x
    simp only [hcover, ← hsum x]
    omega

/-- `swap_on`. -/
theorem inv_swapOn {fd : Int} {offset size : UInt32} {r : Mm.SwapOnResult} (h : s.Inv)
    (hok : s.mm.swapOn fd offset size = .ok (r, mm')) :
    Inv { s with mm := mm', areas := s.areas ++ s.mm.swapArea fd size } := by
  -- One case for each way through `swap_on`. Only the third one adds an area.
  rcases Mm.swapOn_ok hok with ⟨hfd, rfl⟩ | ⟨hfd, hneg, rfl⟩ | ⟨hfd, hpos, hsize, hfree⟩ |
    ⟨hfd, -, hsize, rfl⟩
  · rw [Mm.swapArea, if_neg fun hall => hfd hall.1, List.append_nil]
    exact h
  · rw [Mm.swapArea, if_neg (by omega), List.append_nil]
    obtain ⟨⟨hterr, hspare⟩, T, hholds, hdrops⟩ := h
    exact ⟨⟨hterr, fun _ => hspare hfd⟩, T, hholds.congr rfl fun _ _ => rfl, hdrops⟩
  · rw [Mm.swapArea, if_pos ⟨hfd, hpos, hsize⟩]
    exact inv_swapArea h hfd hpos hsize hfree
  · rw [Mm.swapArea, if_neg fun hall => hall.2.2 hsize, List.append_nil]
    obtain ⟨⟨hterr, hspare⟩, T, hholds, hdrops⟩ := h
    exact ⟨⟨hterr, fun _ => hspare hfd⟩, T, hholds.congr rfl fun _ _ => rfl, hdrops⟩

/-- Each call of the memory manager keeps the invariant. -/
theorem step_inv (h : s.Inv) (hstep : Step s s') : s'.Inv := by
  cases hstep with
  | allocMem hok hmoves => exact inv_allocMem h hok hmoves
  | freeMem howned hok => exact inv_freeMem h howned hok
  | exit hp hok => exact inv_exit h hp hok
  | fork hp he himage => exact inv_fork h hp he himage
  | setFlags hp _ _ => exact inv_frame h rfl rfl fun q _ => Mm.image_setProc_flags _ q _
  | swapInqueue hp _ hok =>
      obtain ⟨htable, hset, himage⟩ := Mm.swapInqueue_frame hok
      exact inv_frame h htable hset fun q _ => himage q
  | swapIn hmov hok => exact inv_swapIn h hmov hok
  | swapOn hok => exact inv_swapOn h hok
  | doWorstFit m1i1 =>
      -- The mode is read by `alloc_mem` only.
      obtain ⟨⟨hterr, hspare⟩, T, hholds, hdrops⟩ := h
      obtain ⟨w, hw⟩ := Mm.doWorstFit_eq s.mm m1i1
      rw [hw]
      exact ⟨⟨hterr, hspare⟩, T, hholds.congr rfl fun _ _ => rfl, hdrops⟩

/-- Only `swap_on` writes the variables of the swap area, and only it adds an area. -/
theorem step_settings (hstep : Step s s') :
    (s'.mm.settings = s.mm.settings ∧ s'.areas = s.areas) ∨
      ∃ fd offset size r mm', s.mm.swapOn fd offset size = .ok (r, mm') ∧
        s' = { s with mm := mm', areas := s.areas ++ s.mm.swapArea fd size } := by
  cases hstep with
  | allocMem hok _ => exact Or.inl ⟨Mm.allocMem_settings hok, rfl⟩
  | freeMem _ hok => exact Or.inl ⟨Mm.freeMem_settings hok, rfl⟩
  | @exit p mm' _ hok =>
      have hset : mm'.settings = s.mm.settings := Mm.freeMem_settings hok
      exact Or.inl ⟨hset, rfl⟩
  | fork _ _ _ => exact Or.inl ⟨rfl, rfl⟩
  | setFlags _ _ _ => exact Or.inl ⟨rfl, rfl⟩
  | swapInqueue _ _ hok => exact Or.inl ⟨(Mm.swapInqueue_frame hok).2.1, rfl⟩
  | swapIn _ hok => exact Or.inl ⟨Mm.swapIn_settings hok, rfl⟩
  | swapOn hok => exact Or.inr ⟨_, _, _, _, _, hok, rfl⟩
  | doWorstFit m1i1 =>
      obtain ⟨w, hw⟩ := Mm.doWorstFit_eq s.mm m1i1
      refine Or.inl ⟨?_, rfl⟩
      show (s.mm.doWorstFit m1i1).settings = s.mm.settings
      rw [hw]
      rfl

/-- A call adds the swap area to the areas, at most once, or it leaves the areas alone. -/
theorem step_areas (hstep : Step s s') : s'.mm.swapBase = s.mm.swapBase ∧
    ((s'.areas = s.areas ∧ (s.mm.swapFd ≠ -1 →
        s'.mm.swapFd ≠ -1 ∧ s'.mm.swapOffset = s.mm.swapOffset)) ∨
      (s.mm.swapFd = -1 ∧ s'.mm.swapFd ≠ -1 ∧
        ∃ n, s'.areas = s.areas ++ [range s.mm.swapBase n])) := by
  rcases step_settings hstep with ⟨hset, hareas⟩ | ⟨fd, offset, size, r, mm', hok, rfl⟩
  · simp only [Mm.settings, Prod.mk.injEq] at hset
    exact ⟨hset.2.2.1, Or.inl ⟨hareas, fun hfd => ⟨hset.1 ▸ hfd, hset.2.1⟩⟩⟩
  · show mm'.swapBase = s.mm.swapBase ∧ ((s.areas ++ s.mm.swapArea fd size = s.areas ∧ _) ∨ _)
    rcases Mm.swapOn_settings hok with ⟨hnone, ⟨hfd, hset⟩ | ⟨hfd, -, hset⟩⟩ | ⟨hfd, hpos, hset⟩
    · simp only [Mm.settings, Prod.mk.injEq] at hset
      rw [hnone, List.append_nil]
      exact ⟨hset.2.2.1, Or.inl ⟨rfl, fun hfd => ⟨hset.1 ▸ hfd, hset.2.1⟩⟩⟩
    · simp only [Mm.settings, Prod.mk.injEq] at hset
      rw [hnone, List.append_nil]
      exact ⟨hset.2.2.1, Or.inl ⟨rfl, fun hne => absurd hfd hne⟩⟩
    -- The file is open now. There is an area when one click or more fit into it.
    · simp only [Mm.settings, Prod.mk.injEq] at hset
      refine ⟨hset.2.2.1, ?_⟩
      rw [Mm.swapArea_of_open hfd hpos]
      split_ifs
      · exact Or.inl ⟨List.append_nil _, fun hne => absurd hfd hne⟩
      · refine Or.inr ⟨hfd, ?_, _, rfl⟩
        rw [hset.1]
        omega

/-- The click below the swap area belongs to no area. -/
def Gap (s : Sys) : Prop := ∀ x, x + 1 = s.mm.swapBase.toNat → cover s.areas x = 0

/-- Each call keeps the gap. The one area that is added starts at `swap_base`, behind the gap. -/
theorem step_gap (h : s.Gap) (hstep : Step s s') : s'.Gap := by
  intro x hx
  obtain ⟨hbase, ⟨hareas, -⟩ | ⟨-, -, n, hareas⟩⟩ := step_areas hstep
  · rw [hareas]
    exact h x (hbase ▸ hx)
  · rw [hbase] at hx
    rw [hareas, cover_append, h x hx, cover_cons, cover_nil, if_neg]
    rw [mem_range]
    omega

/-! ### The swap area -/

/-- A call of `swap_on` for `size` bytes has opened the swap file, between the states `s₀` and `s`
of a run. -/
def Opened (s₀ s : Sys) (size : UInt32) : Prop :=
  0 ≤ s.mm.swapFd ∧ ∃ u offset r mm', Reaches s₀ u ∧ u.mm.swapFd = -1 ∧
    u.mm.swapOn s.mm.swapFd offset size = .ok (r, mm') ∧
    Reaches { u with mm := mm', areas := u.areas ++ u.mm.swapArea s.mm.swapFd size } s

/-- What `swap_on` adds to the areas for `size` bytes. -/
def openedArea (s : Sys) (size : UInt32) : List Extent :=
  let n := min (size >>> UInt32.ofNat clickShift) s.mm.swapMaxsize
  if n = 0 then [] else [range s.mm.swapBase n]

/-- Before `swap_on` has opened a file the areas are those at the start of the run. Then the swap
area is with them. -/
def AreasSince (s₀ s : Sys) : Prop :=
  (s.mm.swapFd < 0 ∧ s.areas = s₀.areas) ∨
    ∃ size, s₀.Opened s size ∧ s.areas = s₀.areas ++ s.openedArea size

/-- Each call keeps this. Only a call of `swap_on` can open the file, and it does so once, since it
does nothing when there is a file. -/
theorem step_areasSince {s₀ : Sys} (hrun : Reaches s₀ s) (h : s₀.AreasSince s)
    (hstep : Step s s') : s₀.AreasSince s' := by
  -- A call that keeps the variables keeps what was known before.
  have hkeep : s'.mm.settings = s.mm.settings → s'.areas = s.areas → s₀.AreasSince s' := by
    intro hset hareas
    simp only [Mm.settings, Prod.mk.injEq] at hset
    obtain ⟨hfd, -, hbase, hmax⟩ := hset
    rcases h with ⟨hneg, hsame⟩ | ⟨size, ⟨hpos, u, offset, r, mm', hu, hclosed, hok, hu'⟩, hsame⟩
    · exact Or.inl ⟨hfd ▸ hneg, hareas.trans hsame⟩
    · refine Or.inr ⟨size, ?_, ?_⟩
      · refine ⟨hfd ▸ hpos, u, offset, r, mm', hu, hclosed, ?_, ?_⟩
        · rw [hfd, hok]
        · rw [hfd]
          exact hu'.tail hstep
      · rw [hareas, hsame, openedArea, openedArea, hbase, hmax]
  rcases step_settings hstep with ⟨hset, hareas⟩ | ⟨fd, offset, size, r, mm', hok, hs'⟩
  · exact hkeep hset hareas
  · have hmm : s'.mm = mm' := congrArg Sys.mm hs'
    have hareas : s'.areas = s.areas ++ s.mm.swapArea fd size := congrArg Sys.areas hs'
    rcases Mm.swapOn_settings hok with ⟨hnone, ⟨hfd, hset⟩ | ⟨hfd, hneg, hset⟩⟩ | ⟨hfd, hpos, hset⟩
    · exact hkeep (hmm ▸ hset) (by rw [hareas, hnone, List.append_nil])
    · rcases h with ⟨-, hsame⟩ | ⟨-, ⟨hpos, -⟩, -⟩
      · simp only [Mm.settings, Prod.mk.injEq] at hset
        refine Or.inl ⟨hmm ▸ hset.1 ▸ hneg, ?_⟩
        rw [hareas, hnone, List.append_nil, hsame]
      · omega
    · rcases h with ⟨-, hsame⟩ | ⟨-, ⟨hpos, -⟩, -⟩
      · simp only [Mm.settings, Prod.mk.injEq, ← hmm] at hset
        obtain ⟨hfd', -, hbase, hmax⟩ := hset
        refine Or.inr ⟨size, ⟨hfd' ▸ hpos, s, offset, r, mm', hrun, hfd, hfd' ▸ hok, ?_⟩, ?_⟩
        · rw [hfd', ← hs']
          exact .refl
        · rw [hareas, hsame, Mm.swapArea_of_open hfd hpos, openedArea, hbase, hmax,
            Mm.swapClicks_eq_min]
      · omega

/-- There is at most one area more than at the start, the one at `swap_base`. -/
theorem AreasSince.eq_or {s₀ : Sys} (h : s₀.AreasSince s) :
    s.areas = s₀.areas ∨ ∃ n, s.areas = s₀.areas ++ [range s.mm.swapBase n] := by
  rcases h with ⟨-, hsame⟩ | ⟨size, -, hareas⟩
  · exact Or.inl hsame
  · rw [hareas, openedArea]
    split_ifs
    · exact Or.inl (List.append_nil _)
    · exact Or.inr ⟨_, rfl⟩

/-- After any run that starts without a swap file, the areas are the ones at the start, and the swap
area when a file was opened. -/
theorem reaches_areas {s₀ : Sys} (hclosed : s₀.mm.swapFd < 0) (hrun : Reaches s₀ s) :
    s₀.AreasSince s :=
  (Run.invariant (P := fun u => Reaches s₀ u ∧ s₀.AreasSince u) hrun
    ⟨.refl, Or.inl ⟨hclosed, rfl⟩⟩ fun _ _ hu hstep =>
      ⟨hu.1.tail hstep, step_areasSince hu.1 hu.2 hstep⟩).2

end Sys

end

end Soi.Pamiec
