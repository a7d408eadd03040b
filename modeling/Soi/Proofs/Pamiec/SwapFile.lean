import Soi.Proofs.Pamiec.HoleList

/-!
# `Soi.Proofs.Pamiec.SwapFile`: a process on swap gets its own image back

The address of a process on swap is also the place of its image in the swap file: `fileRange` is
the range of bytes that belongs to a range of clicks. Disjoint clicks have disjoint bytes
(`fileRange_disjoint`), and below 2^31 bytes the arithmetic of the source is exact.

`Filed` is the invariant: the last write of a process on swap went to the bytes of its image,
and nobody wrote there since. `swap_out` keeps it since the new image was a hole before, which is
disjoint from all images (`Filed.swapOutProc`). `swap_in` may swap out other processes before it
reads, but none of them is on swap already (`Filed.swapInRound`).

`SwapInv` is the invariant of the runs, and `readsBack_of_reaches` is the result.
-/

set_option autoImplicit false

namespace Soi.Pamiec

open Soi.Lib

section
variable [MmConfig] {mm mm' : Mm} {live : Finset (Fin nrProcs)} {T : Nat → Nat}

namespace Mm

/-! ### The bytes of a range of clicks -/

/-- The bytes in the swap file of `size` clicks of the swap area from `base` on. -/
def fileRange (mm : Mm) (base size : UInt32) : Extent :=
  ⟨mm.swapOffset.toNat + (base.toNat - mm.swapBase.toNat) * 2 ^ clickShift,
    size.toNat * 2 ^ clickShift⟩

/-- The click of a byte of the swap file. -/
theorem exists_click {base size : UInt32} (hbase : mm.swapBase ≤ base) {y : Nat}
    (hy : y ∈ mm.fileRange base size) :
    mm.swapBase.toNat + (y - mm.swapOffset.toNat) / 2 ^ clickShift ∈ range base size := by
  have hbase := UInt32.le_iff_toNat_le.mp hbase
  obtain ⟨hlow, hhigh⟩ := hy
  simp only [fileRange, Extent.stop] at hlow hhigh
  have hpow : 0 < 2 ^ clickShift := Nat.two_pow_pos clickShift
  -- Dividing the offset by the click size gives the click inside the swap area.
  have h₁ : base.toNat - mm.swapBase.toNat ≤ (y - mm.swapOffset.toNat) / 2 ^ clickShift := by
    rw [Nat.le_div_iff_mul_le hpow]
    omega
  have h₂ : (y - mm.swapOffset.toNat) / 2 ^ clickShift
      < base.toNat - mm.swapBase.toNat + size.toNat := by
    rw [Nat.div_lt_iff_lt_mul hpow, Nat.add_mul]
    omega
  rw [mem_range]
  omega

/-- Disjoint ranges of clicks have disjoint bytes. -/
theorem fileRange_disjoint {b₁ s₁ b₂ s₂ : UInt32} (h₁ : mm.swapBase ≤ b₁)
    (h₂ : mm.swapBase ≤ b₂) (hdisj : ∀ x ∈ range b₁ s₁, x ∉ range b₂ s₂) :
    ∀ y ∈ mm.fileRange b₁ s₁, y ∉ mm.fileRange b₂ s₂ := fun _ hy₁ hy₂ =>
  hdisj _ (exists_click h₁ hy₁) (exists_click h₂ hy₂)

/-- The swap area `T` fits into the part of the file that `lseek` can reach. -/
def FileFits (mm : Mm) (T : Nat → Nat) : Prop :=
  ∀ x, T x ≠ 0 → mm.swapBase.toNat ≤ x →
    mm.swapOffset.toNat + (x + 1 - mm.swapBase.toNat) * 2 ^ clickShift ≤ 2 ^ 31

/-- A shift by `CLICK_SHIFT` turns clicks into bytes, when the bytes can be counted. -/
theorem toNat_shiftLeft {x : UInt32} (h : x.toNat * 2 ^ clickShift < 2 ^ 32) :
    (x <<< UInt32.ofNat clickShift).toNat = x.toNat * 2 ^ clickShift := by
  have hlt : clickShift < 32 := MmConfig.clickShift_lt
  have hshift : (UInt32.ofNat clickShift).toNat = clickShift := by
    rw [UInt32.toNat_ofNat', Nat.mod_eq_of_lt (by omega)]
  rw [UInt32.toNat_shiftLeft, hshift, Nat.mod_eq_of_lt hlt, Nat.shiftLeft_eq,
    Nat.mod_eq_of_lt h]

/-- Where the transfer of an image starts. -/
theorem filePos_lseek {base : UInt32} (hbase : mm.swapBase ≤ base)
    (hlim : mm.swapOffset.toNat + (base.toNat - mm.swapBase.toNat) * 2 ^ clickShift < 2 ^ 31) :
    (mm.lseek (mm.swapFileOff base)).filePos
      = mm.swapOffset.toNat + (base.toNat - mm.swapBase.toNat) * 2 ^ clickShift := by
  have hsub : (base - mm.swapBase).toNat = base.toNat - mm.swapBase.toNat :=
    UInt32.toNat_sub_of_le _ _ hbase
  have hoff : (mm.swapFileOff base).toNat
      = mm.swapOffset.toNat + (base.toNat - mm.swapBase.toNat) * 2 ^ clickShift := by
    rw [swapFileOff, UInt32.toNat_add, toNat_shiftLeft (by rw [hsub]; omega), hsub,
      Nat.mod_eq_of_lt (by omega)]
  rw [lseek, hoff]
  exact if_pos hlim

/-! ### The images on swap -/

/-- The image of `p` is in the swap file, at the place of its address. -/
structure Stored (mm : Mm) (p : Fin nrProcs) : Prop where
  base_le : mm.swapBase ≤ (mm.mproc p).segD.memPhys
  pos_lt : (mm.fileRange (mm.mproc p).segD.memPhys (mm.mproc p).imageSize).base < 2 ^ 31
  bytes_lt : (mm.mproc p).imageSize.toNat * 2 ^ clickShift < 2 ^ 32
  last : LastWrite mm.swapIo p (mm.fileRange (mm.mproc p).segD.memPhys (mm.mproc p).imageSize)

/-- The images of the processes on swap are in the swap file, only live processes are on swap
or move there, and the queue of `swap_in` holds processes on swap. -/
structure Filed (mm : Mm) (live : Finset (Fin nrProcs)) : Prop where
  movable : mm.Movable live
  live : ∀ p, (mm.mproc p).mpFlags.onswap → p ∈ live
  queued : ∀ p, (mm.mproc p).mpFlags.swapin → (mm.mproc p).mpFlags.onswap
  stored : ∀ p, (mm.mproc p).mpFlags.onswap → mm.Stored p
  reads : ReadsBack mm.swapIo

/-- What is stored depends on the swap area, the process and the log. -/
theorem Stored.congr {p : Fin nrProcs} (h : mm.Stored p) (hset : mm'.settings = mm.settings)
    (himage : mm'.image p = mm.image p)
    (hlast : LastWrite mm'.swapIo p
      (mm.fileRange (mm.mproc p).segD.memPhys (mm.mproc p).imageSize)) : mm'.Stored p := by
  simp only [settings, Prod.mk.injEq] at hset
  obtain ⟨-, hoff, hbase, -⟩ := hset
  simp only [image, range, Extent.mk.injEq] at himage
  have hphys := UInt32.toNat_inj.mp himage.1
  have hsize := UInt32.toNat_inj.mp himage.2
  have hrange : ∀ base size, mm'.fileRange base size = mm.fileRange base size := by
    intro base size
    rw [fileRange, fileRange, hoff, hbase]
  refine ⟨?_, ?_, ?_, ?_⟩
  · rw [hbase, hphys]
    exact h.base_le
  · rw [hrange, hphys, hsize]
    exact h.pos_lt
  · rw [hsize]
    exact h.bytes_lt
  · rw [hrange, hphys, hsize]
    exact hlast

/-- A call that changes neither the process table nor the log. -/
theorem Filed.congr (h : mm.Filed live) (hset : mm'.settings = mm.settings)
    (hmproc : mm'.mproc = mm.mproc) (hlog : mm'.swapIo = mm.swapIo) : mm'.Filed live := by
  refine ⟨fun p => hmproc ▸ h.movable p, fun p => hmproc ▸ h.live p, fun p => hmproc ▸ h.queued p,
    ?_, hlog ▸ h.reads⟩
  intro p hp
  have hold := h.stored p (hmproc ▸ hp)
  refine hold.congr hset ?_ (hlog ▸ hold.last)
  rw [image, image, hmproc]

/-- A call that changes the slot of `i` only. The file still holds what it held for the other
processes on swap. -/
theorem Filed.update {i : Fin nrProcs} {live' : Finset (Fin nrProcs)} (h : mm.Filed live)
    (hset : mm'.settings = mm.settings) (hrest : ∀ p, p ≠ i → mm'.mproc p = mm.mproc p)
    (hlive : ∀ p ∈ live, p ≠ i → p ∈ live')
    (hmov : (mm'.mproc i).mpFlags.swappable ∨ (mm'.mproc i).mpFlags.swapin → i ∈ live')
    (hon : (mm'.mproc i).mpFlags.onswap → i ∈ live' ∧ mm'.Stored i)
    (hqueued : (mm'.mproc i).mpFlags.swapin → (mm'.mproc i).mpFlags.onswap)
    (hlast : ∀ p, p ≠ i → mm.Stored p → p ∈ live → LastWrite mm'.swapIo p
      (mm.fileRange (mm.mproc p).segD.memPhys (mm.mproc p).imageSize))
    (hreads : ReadsBack mm'.swapIo) : mm'.Filed live' where
  movable := by
    intro p hp
    by_cases hpi : p = i
    · subst hpi
      exact hmov hp
    · rw [hrest p hpi] at hp
      exact hlive p (h.movable p hp) hpi
  live := by
    intro p hp
    by_cases hpi : p = i
    · subst hpi
      exact (hon hp).1
    · rw [hrest p hpi] at hp
      exact hlive p (h.live p hp) hpi
  queued := by
    intro p hp
    by_cases hpi : p = i
    · subst hpi
      exact hqueued hp
    · rw [hrest p hpi] at hp ⊢
      exact h.queued p hp
  stored := by
    intro p hp
    by_cases hpi : p = i
    · subst hpi
      exact (hon hp).2
    · rw [hrest p hpi] at hp
      have hold := h.stored p hp
      refine hold.congr hset ?_ (hlast p hpi hold (h.live p hp))
      rw [image, image, hrest p hpi]
  reads := hreads

/-- `swap_out` of a live process writes its image where no other image is. -/
theorem Filed.swapOutProc {i : Fin nrProcs} (h : mm.Filed live) (hT : Territory T)
    (hholds : mm.Holds live T) (hfits : mm.FileFits T) (hi : i ∈ live)
    (hok : mm.swapOutProc i = .ok (some mm')) : mm'.Filed live := by
  obtain ⟨m, hrep, hm, hcover⟩ := hholds
  obtain ⟨newBase, table, rfl, hbase, hhole, hplace⟩ := swapOutProc_place hT hrep hm
    (cover_le_of_holds hcover) hok
  have hbase' := UInt32.le_iff_toNat_le.mp hbase
  set size := (mm.mproc i).imageSize with hsize
  -- The hole is inside the swap area, so the position of the transfer and its length are exact.
  have hpos : mm.swapOffset.toNat + (newBase.toNat - mm.swapBase.toNat) * 2 ^ clickShift
      < 2 ^ 31 := by
    have hlim := hfits newBase.toNat (by rw [← hcover]; omega) hbase'
    have hpow : 0 < 2 ^ clickShift := Nat.two_pow_pos clickShift
    rw [Nat.sub_add_comm hbase', Nat.add_mul, Nat.one_mul] at hlim
    omega
  have hbytes : size.toNat * 2 ^ clickShift < 2 ^ 32 := by
    by_cases h0 : size.toNat = 0
    · rw [h0, Nat.zero_mul]
      exact Nat.two_pow_pos 32
    · have hlast : newBase.toNat + size.toNat - 1 ∈ range newBase size := by
        rw [mem_range]
        omega
      have hlim := hfits _ (by rw [← hcover]; have := hplace _ hlast; omega)
        (show mm.swapBase.toNat ≤ newBase.toNat + size.toNat - 1 by omega)
      have hle := Nat.mul_le_mul_right (2 ^ clickShift)
        (show size.toNat ≤ newBase.toNat + size.toNat - 1 + 1 - mm.swapBase.toNat by omega)
      omega
  have hlog : (mm.swappedOut i newBase table).swapIo
      = .write i (mm.fileRange newBase size) :: mm.swapIo := by
    have hfile := filePos_lseek hbase hpos
    show Transfer.write i ⟨(mm.lseek (mm.swapFileOff newBase)).filePos, _⟩ :: mm.swapIo = _
    rw [hfile, toNat_shiftLeft hbytes]
    rfl
  have hstored : (mm.swappedOut i newBase table).Stored i := by
    have himage := image_swappedOut_self mm i newBase table
    simp only [image, range, Extent.mk.injEq] at himage
    have hphys := UInt32.toNat_inj.mp himage.1
    have hsz := UInt32.toNat_inj.mp himage.2
    refine ⟨?_, ?_, ?_, ?_⟩
    · rw [hphys]
      exact hbase
    · rw [hphys]
      exact hpos
    · rw [hsz]
      exact hbytes
    · rw [hlog, hphys, hsz]
      exact .self _ i _
  refine h.update (i := i) (settings_swappedOut i newBase table)
    (fun p hpi => mproc_swappedOut_of_ne mm hpi newBase table) (fun p hp _ => hp) (fun _ => hi)
    (fun _ => ⟨hi, hstored⟩) ?_ ?_ ?_
  · intro _
    rw [mproc_swappedOut_self]
  · -- The image of `p` is disjoint from the hole that the new image was put into.
    intro p hpi hold hp
    rw [hlog]
    refine hold.last.write (Ne.symm hpi)
      (fileRange_disjoint hbase hold.base_le fun x hx hxp => ?_)
    have hpos := hplace x hx
    have hheld := held_pos_of_mem hp hxp
    have hone := hT.le_one x
    rw [← hcover x] at hone
    omega
  · rw [hlog]
    exact h.reads.write i _

/-- A write of a link changes nothing about the file. -/
theorem Filed.setLink (h : mm.Filed live) (pmp q : Option (Fin nrProcs)) :
    (mm.setLink pmp q).Filed live := by
  have hlog : (mm.setLink pmp q).swapIo = mm.swapIo := by
    cases pmp <;> rfl
  refine ⟨?_, ?_, ?_, ?_, hlog ▸ h.reads⟩
  · intro p hp
    rw [mpFlags_setLink] at hp
    exact h.movable p hp
  · intro p hp
    rw [mpFlags_setLink] at hp
    exact h.live p hp
  · intro p hp
    rw [mpFlags_setLink] at hp ⊢
    exact h.queued p hp
  · intro p hp
    rw [mpFlags_setLink] at hp
    have hold := h.stored p hp
    exact hold.congr (settings_setLink pmp q) (image_setLink pmp q p) (hlog ▸ hold.last)

/-- `alloc_mem` may swap out processes, and then it changes only the table. -/
theorem Filed.allocMem {clicks b : UInt32} (h : mm.Filed live) (hT : Territory T)
    (hholds : mm.Holds live T) (hfits : mm.FileFits T)
    (hok : mm.allocMem clicks = .ok (b, mm')) : mm'.Filed live := by
  obtain ⟨mm₁, hswaps, hcases⟩ := allocLoop_cases hok
  have hmoves := (hswaps.movable h.movable).1
  have h₁ : mm₁.Holds live T ∧ mm₁.FileFits T ∧ mm₁.Filed live := by
    refine hswaps.induct hmoves (P := fun a => a.Holds live T ∧ a.FileFits T ∧ a.Filed live)
      ⟨hholds, hfits, h⟩ ?_
    rintro a i b ⟨ha₁, ha₂, ha₃⟩ hi hab
    refine ⟨swapOutProc_holds hT ha₁ hi hab, ?_, ha₃.swapOutProc hT ha₁ ha₂ hi hab⟩
    obtain ⟨-, newBase, table, rfl⟩ := swapOutProc_ok hab
    exact ha₂
  rcases hcases with ⟨_, _, _, _, _, rfl⟩ | ⟨_, _, _, rfl⟩
  · exact h₁.2.2.congr rfl rfl rfl
  · exact h₁.2.2

/-- `swap_in` of the process `i`, which gets the clicks at `newBase`, reads the bytes that belong
to its address, and they hold what `swap_out` wrote there for `i`. -/
def ReadsOwn (mm mm₁ mm' : Mm) (i : Fin nrProcs) : Prop :=
  let own := mm.fileRange (mm.mproc i).segD.memPhys (mm.mproc i).imageSize
  mm'.swapIo = .read i own :: mm₁.swapIo ∧ LastWrite mm₁.swapIo i own

/-- A process on swap stays where it is in `alloc_mem`, so that its image is still in the file
when `swap_in` reads it. -/
theorem Filed.readsOwn {mm₁ : Mm} {i : Fin nrProcs} {clicks newBase : UInt32}
    (h : mm.Filed live) (h₁ : mm₁.Filed live) (hi : (mm.mproc i).mpFlags.swapin)
    (hok : mm.allocMem clicks = .ok (newBase, mm₁))
    (hmove : mm₁.swapInProc i newBase (mm.mproc i).imageSize = .ok mm') :
    mm₁.mproc i = mm.mproc i ∧ ReadsOwn mm mm₁ mm' i := by
  have hon := h.queued i hi
  -- Only processes off swap are swapped out, and `i` is on swap.
  have hstay : mm₁.mproc i = mm.mproc i := by
    obtain ⟨mm₂, hswaps, hcases⟩ := allocLoop_cases hok
    rw [← hswaps.mproc_of_onswap hon]
    rcases hcases with ⟨_, _, _, _, _, rfl⟩ | ⟨_, _, _, rfl⟩ <;> rfl
  have hset := allocMem_settings hok
  simp only [settings, Prod.mk.injEq] at hset
  have hrange : mm.fileRange (mm.mproc i).segD.memPhys (mm.mproc i).imageSize
      = mm₁.fileRange (mm₁.mproc i).segD.memPhys (mm₁.mproc i).imageSize := by
    rw [fileRange, fileRange, hstay, hset.2.1, hset.2.2.1]
  have hstored := h₁.stored i (hstay ▸ hon)
  obtain ⟨table, -, rfl⟩ := swapInProc_ok hmove
  refine ⟨hstay, ?_, ?_⟩
  · have hfile := filePos_lseek hstored.base_le hstored.pos_lt
    show Transfer.read i
      ⟨(mm₁.lseek (mm₁.swapFileOff (mm₁.mproc i).segD.memPhys)).filePos, _⟩ :: mm₁.swapIo = _
    rw [hfile, hrange, ← hstay, toNat_shiftLeft hstored.bytes_lt]
    rfl
  · rw [hrange]
    exact hstored.last

/-- One round of `swap_in`. The process that is moved was on swap before `alloc_mem`, so that
`alloc_mem` did not touch its image. -/
theorem Filed.swapInRound (h : mm.Filed live) (hT : Territory T) (hholds : mm.Holds live T)
    (hfits : mm.FileFits T) (hround : SwapInRound mm mm') : mm'.Filed live := by
  cases hround with
  | relink pmp q => exact h.setLink pmp q
  | wait hok => exact h.allocMem hT hholds hfits hok
  | @move mm₁ _ i newBase hi hok hne hmove =>
      -- `alloc_mem` first, which keeps everything, and then the image is read and the slot changes.
      have hon := h.queued i hi
      have h₁ := h.allocMem hT hholds hfits hok
      obtain ⟨-, hlog, hlast⟩ := h.readsOwn h₁ hi hok hmove
      obtain ⟨table, -, rfl⟩ := swapInProc_ok hmove
      refine h₁.update (i := i) (settings_swappedIn i newBase _ table)
        (fun p hpi => mproc_swappedIn_of_ne mm₁ hpi newBase _ table) (fun p hp _ => hp)
        (fun _ => h.live i hon) ?_ ?_ ?_ ?_
      · -- `i` is neither on swap any more nor queued.
        intro hp
        rw [mproc_swappedIn_self] at hp
        cases hp
      · intro hp
        rw [mproc_swappedIn_self] at hp
        cases hp
      · intro p _ hold _
        rw [hlog]
        exact hold.last.read i _
      · rw [hlog]
        exact h₁.reads.read hlast

/-- The rounds of `swap_in`. -/
theorem Filed.swapInRounds (h : mm.Filed live) (hT : Territory T) (hholds : mm.Holds live T)
    (hfits : mm.FileFits T) (hrun : Relation.ReflTransGen SwapInRound mm mm') :
    mm'.Filed live ∧ ∃ T', Territory T' ∧ mm'.Holds live T' ∧ mm'.FileFits T' := by
  refine Run.invariant (P := fun a => a.Filed live ∧ ∃ T', Territory T' ∧ a.Holds live T' ∧
    a.FileFits T') hrun ⟨h, T, hT, hholds, hfits⟩ ?_
  rintro a b ⟨ha, T₁, hT₁, hholds₁, hfits₁⟩ hround
  -- A round may lose a block at address 0, and what is left still fits into the file.
  obtain ⟨-, T', hholds', hdrops⟩ := swapInRound_holds hT₁ hholds₁ ha.movable hround
  refine ⟨ha.swapInRound hT₁ hholds₁ hfits₁ hround, T', hT₁.mono hdrops.le, hholds', ?_⟩
  have hset := hround.settings
  simp only [Mm.settings, Prod.mk.injEq] at hset
  intro x hx
  rw [hset.2.1, hset.2.2.1]
  exact hfits₁ x fun h0 => hx (Nat.eq_zero_of_le_zero (h0 ▸ hdrops.le x))

/-- A slot that is not in use any more, or not yet. -/
theorem Filed.clear {live' : Finset (Fin nrProcs)} {p : Fin nrProcs} {rmp : Mproc}
    (h : mm.Filed live) (hflags : rmp.mpFlags = MpFlags.none)
    (hlive : ∀ q ∈ live, q ≠ p → q ∈ live') : (mm.setProc p rmp).Filed live' := by
  have hself : ((mm.setProc p rmp).mproc p).mpFlags = MpFlags.none := by
    rw [mproc_setProc_self, hflags]
  refine h.update (i := p) rfl (fun q hqp => mproc_setProc_of_ne hqp rmp) hlive ?_ ?_ ?_
    (fun q _ hold _ => hold.last) h.reads
  · intro hp
    rw [hself] at hp
    simp [MpFlags.none, MpFlags.swappable, MpFlags.blocked] at hp
  · intro hp
    rw [hself] at hp
    cases hp
  · intro hp
    rw [hself] at hp
    cases hp

/-- New flags for a live process, which stays where it is. -/
theorem Filed.setFlags {p : Fin nrProcs} {f : MpFlags} (h : mm.Filed live) (hp : p ∈ live)
    (honswap : f.onswap = (mm.mproc p).mpFlags.onswap) (hswapin : f.swapin → f.onswap) :
    (mm.setProc p { mm.mproc p with mpFlags := f }).Filed live := by
  have hself : ((mm.setProc p { mm.mproc p with mpFlags := f }).mproc p).mpFlags = f := by
    rw [mproc_setProc_self]
  refine h.update (i := p) rfl (fun q hqp => mproc_setProc_of_ne hqp _) (fun q hq _ => hq)
    (fun _ => hp) ?_ ?_ (fun q _ hold _ => hold.last) h.reads
  · intro hon
    rw [hself, honswap] at hon
    have hold := h.stored p hon
    exact ⟨hp, hold.congr rfl (image_setProc_flags p p f) hold.last⟩
  · intro hin
    rw [hself] at hin ⊢
    exact hswapin hin

/-- `swap_inqueue` of a process on swap. -/
theorem Filed.swapInqueue {p : Fin nrProcs} (h : mm.Filed live)
    (honswap : (mm.mproc p).mpFlags.onswap) (hok : mm.swapInqueue p = .ok mm') :
    mm'.Filed live := by
  rcases swapInqueue_ok hok with rfl | ⟨pmp, rfl⟩
  · exact h
  · have h₁ := (h.setLink pmp (some p)).setLink (some p) none
    have hflags : (((mm.setLink pmp (some p)).setLink (some p) none).mproc p).mpFlags
        = (mm.mproc p).mpFlags := by
      rw [mpFlags_setLink, mpFlags_setLink]
    refine h₁.setFlags (h.live p honswap) rfl ?_
    intro _
    rw [hflags]
    exact honswap

end Mm

namespace Sys

variable {s s' : Sys}

/-- The invariant of the runs with swapping on. -/
structure SwapInv (s : Sys) : Prop where
  inv : s.Inv
  on : s.mm.swapFd ≠ -1
  fits : s.mm.FileFits (cover s.areas)
  filed : s.mm.Filed s.live

/-- The clicks of the holes and of the live images. -/
theorem SwapInv.holds (h : s.SwapInv) :
    ∃ T, Territory T ∧ s.mm.Holds s.live T ∧ s.mm.FileFits T := by
  obtain ⟨⟨hareas, T, hholds, hdrops⟩, -, hfits, -⟩ := h
  refine ⟨T, territory_of_drops hareas.territory hdrops, hholds, fun x hx => hfits x ?_⟩
  intro h0
  have hle : T x + cover s.blocks x ≤ cover s.areas x := hdrops.le x
  omega

/-- Each call keeps the images of the processes on swap in the file. A write goes to clicks of the
swap area that were free before it. -/
theorem step_filed (h : s.SwapInv) (hstep : Step s s') : s'.mm.Filed s'.live := by
  obtain ⟨T, hT, hholds, hfits⟩ := h.holds
  obtain ⟨-, hon, -, hfiled⟩ := h
  cases hstep with
  | allocMem hok _ => exact hfiled.allocMem hT hholds hfits hok
  | freeMem _ hok =>
      obtain ⟨table, -, rfl⟩ := Mm.freeMem_ok hok
      exact hfiled.congr rfl rfl rfl
  | @exit p mm' _ hok =>
      obtain ⟨table, -, rfl⟩ := Mm.freeMem_ok hok
      have hfreed : Mm.Filed { s.mm with table := table } s.live := hfiled.congr rfl rfl rfl
      exact hfreed.clear rfl fun q hq hqp => Finset.mem_erase.mpr ⟨hqp, hq⟩
  | fork _ _ _ => exact hfiled.clear rfl fun q hq _ => Finset.mem_insert_of_mem hq
  | setFlags hp honswap hswapin =>
      refine hfiled.setFlags hp honswap ?_
      intro hin
      rw [honswap]
      exact hfiled.queued _ (hswapin ▸ hin)
  | swapInqueue _ honswap hok => exact hfiled.swapInqueue honswap hok
  | swapIn _ hok => exact (hfiled.swapInRounds hT hholds hfits (Mm.swapInLoop_run hok)).1
  | swapOn hok =>
      rcases Mm.swapOn_ok hok with ⟨-, rfl⟩ | ⟨hfd, -⟩ | ⟨hfd, -⟩ | ⟨hfd, -⟩
      · exact hfiled
      · exact absurd hfd hon
      · exact absurd hfd hon
      · exact absurd hfd hon
  | doWorstFit m1i1 =>
      obtain ⟨w, hw⟩ := Mm.doWorstFit_eq s.mm m1i1
      rw [hw]
      exact hfiled.congr rfl rfl rfl

/-- Each call keeps the invariant. -/
theorem step_swapInv (h : s.SwapInv) (hstep : Step s s') : s'.SwapInv := by
  have hfiled := step_filed h hstep
  obtain ⟨hinv, hon, hfits, -⟩ := h
  -- With swapping on, no call adds an area or moves `swap_base`.
  obtain ⟨hbase, ⟨hareas, hkeep⟩ | ⟨hfd, -⟩⟩ := step_areas hstep
  · obtain ⟨hon', hoff⟩ := hkeep hon
    refine ⟨step_inv hinv hstep, hon', ?_, hfiled⟩
    intro x hx
    rw [hbase, hoff]
    rw [hareas] at hx
    exact hfits x hx
  · exact absurd hfd hon

/-- A state from which swapping starts. Each click of the areas is in one hole, in the image of
one live process or in one block, and the swap area is in the first 2^31 bytes of the file. -/
structure SwapStart (s : Sys) : Prop where
  areas : Territory (cover s.areas)
  table : ∃ m, s.mm.table.Represents m ∧ Coalesced m ∧
    ∀ x, cover m x + s.mm.held s.live x + cover s.blocks x = cover s.areas x
  movable : s.mm.Movable s.live
  offSwap : ∀ p, ¬ (s.mm.mproc p).mpFlags.onswap ∧ ¬ (s.mm.mproc p).mpFlags.swapin
  on : s.mm.swapFd ≠ -1
  fits : s.mm.FileFits (cover s.areas)
  /-- Nothing is logged yet. -/
  log : s.mm.swapIo = []

/-- Nobody is on swap at the start, so that there is nothing to be stored. -/
theorem SwapStart.swapInv (h : s.SwapStart) : s.SwapInv := by
  obtain ⟨hareas, ⟨m, hrep, hm, hcover⟩, hmov, hoff, hon, hfits, hlog⟩ := h
  refine ⟨⟨⟨hareas, fun hfd => absurd hfd hon⟩, _, ⟨m, hrep, hm, fun x => rfl⟩, [], by simp,
    ?_⟩, hon, hfits, ⟨hmov, ?_, ?_, ?_, ?_⟩⟩
  · intro x
    rw [cover_nil, Nat.add_zero]
    exact hcover x
  · exact fun p hp => absurd hp (hoff p).1
  · exact fun p hp => absurd hp (hoff p).2
  · exact fun p hp => absurd hp (hoff p).1
  · rw [hlog]
    exact readsBack_nil

/-- In every state of a run with swapping on, the images of the live processes are disjoint, and
disjoint from the holes. The image of a process on swap is in the file, where nobody else wrote
since `swap_out` put it there, and each `swap_in` reads just these bytes. No call moves a
process that is not live. -/
theorem readsBack_of_reaches (s₀ s : Sys) (h : s₀.SwapStart) (hrun : Reaches s₀ s) :
    (∃ m, s.mm.table.Represents m ∧ Coalesced m ∧ s.mm.Apart s.live m) ∧
      ReadsBack s.mm.swapIo ∧
      (∀ a, Relation.ReflTransGen Mm.SwapInRound s.mm a →
        (∀ p, (a.mproc p).mpFlags.onswap → a.Stored p) ∧
        ∀ i newBase a₁ b, (a.mproc i).mpFlags.swapin →
          a.allocMem (a.mproc i).imageSize = .ok (newBase, a₁) → newBase ≠ noMem →
          a₁.swapInProc i newBase (a.mproc i).imageSize = .ok b → Mm.ReadsOwn a a₁ b i) ∧
      s.mm.Movable s.live ∧
      ∀ clicks b mm', s.mm.allocMem clicks = .ok (b, mm') → s.mm.Moves mm' s.live := by
  have hinv := Run.invariant hrun h.swapInv fun _ _ => step_swapInv
  obtain ⟨T, hT, hholds, hfits⟩ := hinv.holds
  have hfiled := hinv.filed
  refine ⟨?_, hfiled.reads, ?_, hfiled.movable, ?_⟩
  · obtain ⟨m, hrep, hm, hcover⟩ := hholds
    refine ⟨m, hrep, hm, .of_le_one ?_⟩
    intro x
    rw [hcover x]
    exact hT.le_one x
  · intro a ha
    obtain ⟨hfiled', T', hT', hholds', hfits'⟩ := hfiled.swapInRounds hT hholds hfits ha
    refine ⟨hfiled'.stored, ?_⟩
    intro i newBase a₁ b hi hok _ hmove
    exact (hfiled'.readsOwn (hfiled'.allocMem hT' hholds' hfits' hok) hi hok hmove).2
  · intro clicks b mm' hok
    exact (Mm.allocMem_movable hfiled.movable hok).1

end Sys

end

/-! ### A system with two users -/

/-- Three process slots, the last two for users. -/
@[reducible] def pairConfig : MmConfig :=
  ⟨3, 1, 12, Nat.one_lt_succ_succ 1, tinyConfig.clickShift_lt⟩

section
attribute [local instance] pairConfig

/-- The first user. -/
def userOne : Fin nrProcs := ⟨1, by decide⟩

/-- The second user. -/
def userTwo : Fin nrProcs := ⟨2, by decide⟩

/-- The variables before `mem_init`. -/
def pairMm : Mm where
  table := ⟨fun _ => ⟨none, 0, 0⟩, none, none⟩
  swapFd := -1
  swapOffset := 0
  swapBase := 0
  swapMaxsize := 0
  inQueue := none
  outswap := userOne
  worstFit := 0
  mproc _ := ⟨⟨0, 0, 0⟩, ⟨0, 0, 0⟩, MpFlags.none, none⟩
  filePos := 0
  swapIo := []

/-- A process that waits, with an image of four clicks from `base` on. -/
def pairImage (base : UInt32) : Mproc :=
  ⟨⟨0, base, 2⟩, ⟨2, base + 2, 2⟩, { MpFlags.none with waiting := true }, none⟩

/-- Two processes that wait, one in each chunk. A block has the rest of the second chunk, and there
are eight clicks of swap. -/
def pairWaiting : Sys where
  mm :=
    match (do
      let (mm, _) ← pairMm.memInit (tinyChunks.map some) 0
      let (_, mm) ← mm.allocMem 4
      let (_, mm) ← mm.allocMem 4
      let (_, mm) ← mm.allocMem 2
      let (_, mm) ← mm.swapOn 3 0 0x8000
      pure ((mm.setProc userOne (pairImage 4)).setProc userTwo (pairImage 16)) :
      Except Fault Mm) with
    | .ok mm => mm
    | .error _ => pairMm
  live := {userOne, userTwo}
  blocks := [range 20 2]
  areas := [range 4 4, range 16 6, range 23 8]

/-- The table has one hole, the swap area. -/
theorem pairWaiting_represents : pairWaiting.mm.table.Represents [range 23 8] := by
  refine ⟨[(1 : Fin 6)], [(0 : Fin 6), (2 : Fin 6), (3 : Fin 6), (4 : Fin 6), (5 : Fin 6)],
    ⟨?_, ?_, by decide⟩, rfl⟩
  · exact ⟨rfl, rfl⟩
  · exact ⟨rfl, rfl, rfl, rfl, rfl, rfl⟩

/-- Swapping can start: the hole, the two images and the block are the areas. -/
theorem pairWaiting_start : pairWaiting.SwapStart := by
  have hcover : ∀ x, cover [range 23 8] x + pairWaiting.mm.held {userOne, userTwo} x
      + cover [range 20 2] x = cover pairWaiting.areas x := by
    intro x
    have hheld : pairWaiting.mm.held {userOne, userTwo} x
        = (if x ∈ range 4 4 then 1 else 0) + if x ∈ range 16 4 then 1 else 0 :=
      Finset.sum_pair (by decide)
    rw [hheld, pairWaiting]
    simp only [cover_cons, cover_nil, mem_range, UInt32.reduceToNat]
    split_ifs <;> omega
  have hareas : ∀ x, cover pairWaiting.areas x ≤ 1 ∧ (cover pairWaiting.areas x ≠ 0 → x < 31) := by
    intro x
    simp only [pairWaiting, cover_cons, cover_nil, mem_range, UInt32.reduceToNat]
    split_ifs <;> omega
  refine ⟨⟨fun x => (hareas x).1, ?_, 0, by decide, by decide⟩,
    ⟨_, pairWaiting_represents, ⟨by decide, by simp⟩, hcover⟩,
    by unfold Mm.Movable; decide, by decide, by decide, ?_, rfl⟩
  · intro x hx
    have := (hareas x).2 hx
    omega
  · intro x hx hbase
    have := (hareas x).2 hx
    show 0 + (x + 1 - 23) * 2 ^ 12 ≤ 2 ^ 31
    omega

/-- The system after `alloc_mem` swapped out both processes for two blocks of four clicks, and both
were put on the queue. -/
def pairQueued : Sys where
  mm :=
    match (do
      let (_, mm) ← pairWaiting.mm.allocMem 4
      let (_, mm) ← mm.allocMem 4
      let mm ← mm.swapInqueue userTwo
      mm.swapInqueue userOne : Except Fault Mm) with
    | .ok mm => mm
    | .error _ => pairMm
  live := {userOne, userTwo}
  blocks := [range 4 4, range 16 4, range 20 2]
  areas := [range 4 4, range 16 6, range 23 8]

/-- The system after the first chunk was freed and `swap_in` served the queue: it brings the second
process in, and for the first one it swaps the second one out again. -/
def pairSwapped : Sys where
  mm :=
    match (do
      let mm ← pairQueued.mm.freeMem 4 4
      mm.swapIn : Except Fault Mm) with
    | .ok mm => mm
    | .error _ => pairMm
  live := {userOne, userTwo}
  blocks := [range 16 4, range 20 2]
  areas := [range 4 4, range 16 6, range 23 8]

/-- The calls of the two states, one after the other: two blocks, the queue, one block back, and
`swap_in`. -/
theorem pairSwapped_reached : Sys.Reaches pairWaiting pairSwapped := by
  refine .head (@Sys.Step.allocMem _ pairWaiting 4 16 _ rfl ?_) <|
    .head (@Sys.Step.allocMem _ _ 4 4 _ rfl ?_) <|
    .head (@Sys.Step.swapInqueue _ _ userTwo _ (by decide) (by decide) rfl) <|
    .head (@Sys.Step.swapInqueue _ _ userOne _ (by decide) (by decide) rfl) <|
    .head (@Sys.Step.freeMem _ _ 4 4 _ ?_ rfl) <|
    .single (@Sys.Step.swapIn _ _ _ ?_ rfl)
  · unfold Mm.Moves
    decide
  · unfold Mm.Moves
    decide
  · intro x hx
    exact cover_pos_of_mem (e := range 4 4) (by decide) hx
  · unfold Mm.Movable
    decide

/-- Each process went to the swap area. The second one came back and went there again, for the first
one, which has its image in the first chunk now. -/
theorem readsBack_of_reaches_pair :
    pairSwapped.mm.swapIo = [.read userOne ⟨0x4000, 0x4000⟩, .write userTwo ⟨0, 0x4000⟩,
        .read userTwo ⟨0, 0x4000⟩, .write userOne ⟨0x4000, 0x4000⟩, .write userTwo ⟨0, 0x4000⟩] ∧
      pairSwapped.mm.image userOne = range 4 4 ∧ pairSwapped.mm.image userTwo = range 23 4 ∧
      ReadsBack pairSwapped.mm.swapIo :=
  ⟨rfl, rfl, rfl, (Sys.readsBack_of_reaches pairWaiting pairSwapped pairWaiting_start
    pairSwapped_reached).2.1⟩

end

end Soi.Pamiec
