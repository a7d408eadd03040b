import Soi.Proofs.Pamiec.HoleCount
import Soi.Proofs.Pamiec.Queue
import Soi.Proofs.Pamiec.Retry
import Soi.Proofs.Pamiec.SwapOff

/-!
# `Soi.Proofs.Pamiec.Returns`: no call of the memory manager fails

A call can panic because the hole table is full, read a link of `NIL_HOLE`, or go round a list for
ever. `Sys.Ready` is what excludes this: the invariant of the runs, a table with room for one hole
more than there can be (`HoleCount`), and the links of a proper queue. `swap_out` moves an image
with one hole at most more than before, and the bound does not change when images move, so one
unused entry is enough for any number of processes.

`Ready.allocLoop`, `Ready.swapInLoop` and `Ready.swapOff` follow the loops. What is left is the
error of `swap_off` when the swap area is the only hole. `returns_of_run` is the result about runs.
-/

set_option autoImplicit false

namespace Soi.Pamiec

open Soi.Lib

section
variable [MmConfig] {mm mm' : Mm}

namespace Mm

/-! ### The slots of the users -/

/-- `swap_out` stays in the slots of the users. -/
theorem swapOutLoop_user {fuel : Nat} {i : Fin nrProcs} (hi : lowUser ≤ i.val)
    (hok : mm.swapOutLoop fuel i = .ok (some mm')) :
    ∃ j, lowUser ≤ j.val ∧ mm.swapOutProc j = .ok (some mm') := by
  induction fuel generalizing i with
  | zero => cases hok
  | succ fuel ih =>
      have hnext : lowUser ≤ (nextProc i).val := by
        rw [nextProc_val hi]
        exact Nat.le_add_right _ _
      rw [swapOutLoop] at hok
      obtain ⟨r, hproc, hok⟩ := exists_of_bind hok
      cases r with
      | none =>
          dsimp only at hok
          split_ifs at hok
          · cases hok
          · exact ih hnext hok
      | some mm₁ => exact ⟨nextProc i, hnext, hproc.trans hok⟩

/-- The next search of `swap_out` starts at the slot of a user, and only users are on swap. -/
structure Users (mm : Mm) : Prop where
  outswap : lowUser ≤ mm.outswap.val
  onswap : ∀ p, (mm.mproc p).mpFlags.onswap → lowUser ≤ p.val

/-- `swap_out` moves the process of a user, and sets `outswap` to its slot. -/
theorem Users.swapOut (h : mm.Users) (hok : mm.swapOut = .ok (some mm')) : mm'.Users := by
  obtain ⟨i, hi, hproc⟩ := swapOutLoop_user h.outswap hok
  obtain ⟨-, newBase, table, rfl⟩ := swapOutProc_ok hproc
  refine ⟨hi, fun p hp => ?_⟩
  by_cases hpi : p = i
  · exact hpi ▸ hi
  · rw [mproc_swappedOut_of_ne mm hpi] at hp
    exact h.onswap p hp

/-- `alloc_mem` can only swap out users. -/
theorem Users.allocMem {clicks b : UInt32} (h : mm.Users)
    (hok : mm.allocMem clicks = .ok (b, mm')) : mm'.Users := by
  obtain ⟨mm₁, hswaps, hcases⟩ := allocLoop_cases hok
  have h₁ : mm₁.Users := Run.invariant hswaps h fun a b ha hab => ha.swapOut hab
  rcases hcases with ⟨_, _, _, _, _, rfl⟩ | ⟨_, _, _, rfl⟩
  · exact ⟨h₁.outswap, h₁.onswap⟩
  · exact h₁

/-- A call that leaves `outswap` alone and puts nobody on swap. -/
theorem Users.frame (h : mm.Users) (hout : mm'.outswap = mm.outswap)
    (hon : ∀ p, (mm'.mproc p).mpFlags.onswap → (mm.mproc p).mpFlags.onswap) : mm'.Users := by
  refine ⟨?_, fun p hp => h.onswap p (hon p hp)⟩
  rw [hout]
  exact h.outswap

/-- A write of a link is none of `outswap`. -/
theorem outswap_setLink (pmp q : Option (Fin nrProcs)) :
    (mm.setLink pmp q).outswap = mm.outswap := by
  cases pmp <;> rfl

/-- A round of `swap_in` puts nobody on swap but users. -/
theorem Users.swapInRound (h : mm.Users) (hround : SwapInRound mm mm') : mm'.Users := by
  cases hround with
  | relink pmp q =>
      refine h.frame (outswap_setLink pmp q) fun p hp => ?_
      rwa [mpFlags_setLink] at hp
  | wait hok => exact h.allocMem hok
  | @move mm₁ _ i newBase _ hok _ hmove =>
      obtain ⟨table, -, rfl⟩ := swapInProc_ok hmove
      refine (h.allocMem hok).frame rfl fun p hp => ?_
      by_cases hpi : p = i
      · rw [hpi, mproc_swappedIn_self] at hp
        cases hp
      · rwa [mproc_swappedIn_of_ne mm₁ hpi] at hp

/-! ### The sizes of the images -/

/-- A write of a link changes no size. -/
theorem imageSize_setLink (pmp q : Option (Fin nrProcs)) (p : Fin nrProcs) :
    ((mm.setLink pmp q).mproc p).imageSize = (mm.mproc p).imageSize := by
  cases pmp with
  | none => rfl
  | some i =>
      by_cases h : p = i
      · subst h
        simp [setLink, Mproc.imageSize]
      · rw [setLink, mproc_setProc_of_ne h]

/-- `alloc_mem` moves images, but it changes no size. -/
theorem allocMem_imageSize {clicks b : UInt32} (hok : mm.allocMem clicks = .ok (b, mm'))
    (p : Fin nrProcs) : (mm'.mproc p).imageSize = (mm.mproc p).imageSize := by
  obtain ⟨mm₁, hswaps, hcases⟩ := allocLoop_cases hok
  rw [← hswaps.imageSize p]
  rcases hcases with ⟨_, _, _, _, _, rfl⟩ | ⟨_, _, _, rfl⟩ <;> rfl

/-- A round of `swap_in` changes the size of no image. -/
theorem SwapInRound.imageSize (h : SwapInRound mm mm') (p : Fin nrProcs) :
    (mm'.mproc p).imageSize = (mm.mproc p).imageSize := by
  cases h with
  | relink pmp q => exact imageSize_setLink pmp q p
  | wait hok => exact allocMem_imageSize hok p
  | @move mm₁ _ i newBase _ hok _ hmove =>
      obtain ⟨table, -, rfl⟩ := swapInProc_ok hmove
      rw [← allocMem_imageSize hok p]
      by_cases hpi : p = i
      · subst hpi
        rw [mproc_swappedIn_self]
        rfl
      · rw [mproc_swappedIn_of_ne mm₁ hpi]

/-- What is left of `swap_in` for a process that got memory is the `free_mem` of its old place. -/
theorem swapInProc_eq {i : Fin nrProcs} {size : UInt32} {table : HoleTable nrHoles}
    (hfree : mm.table.freeMem (mm.mproc i).segD.memPhys size = .ok table) (newBase : UInt32) :
    mm.swapInProc i newBase size = .ok (mm.swappedIn i newBase size table) := by
  simp [swapInProc, swappedIn, freeMem, setProc, lseek, readSeg, Mproc.moveTo, hfree, bind,
    Except.bind, pure, Except.pure]

/-! ### The processes that may move -/

/-- A process that is swapped out was a candidate, and so it could move before. -/
theorem SwapsOut.movers {live : Finset (Fin nrProcs)} (h : SwapsOut mm mm')
    (hmov : mm.movers ⊆ live) : mm'.movers ⊆ live := by
  refine h.keeps (P := fun a => a.movers ⊆ live) hmov ?_
  intro a i newBase table ha hcand p hp
  by_cases hpi : p = i
  · exact ha (mem_movers.mpr (Or.inl (hpi ▸ hcand)))
  · rw [mem_movers, mproc_swappedOut_of_ne a hpi, ← mem_movers] at hp
    exact ha hp

/-- Who may be moved after `alloc_mem`, could be moved before it. -/
theorem allocMem_movers {clicks b : UInt32} {live : Finset (Fin nrProcs)}
    (hok : mm.allocMem clicks = .ok (b, mm')) (hmov : mm.movers ⊆ live) : mm'.movers ⊆ live := by
  obtain ⟨mm₁, hswaps, hcases⟩ := allocLoop_cases hok
  have h := hswaps.movers hmov
  rcases hcases with ⟨_, _, _, _, _, rfl⟩ | ⟨_, _, _, rfl⟩ <;> exact h

/-- Who may be moved after a round of `swap_in`, could be moved before it. -/
theorem SwapInRound.movers {live : Finset (Fin nrProcs)} (h : SwapInRound mm mm')
    (hmov : mm.movers ⊆ live) : mm'.movers ⊆ live := by
  cases h with
  | relink pmp q =>
      intro p hp
      rw [mem_movers, mpFlags_setLink, ← mem_movers] at hp
      exact hmov hp
  | wait hok => exact allocMem_movers hok hmov
  | @move mm₁ _ i newBase hi hok _ hmove =>
      obtain ⟨table, -, rfl⟩ := swapInProc_ok hmove
      intro p hp
      by_cases hpi : p = i
      · exact hmov (mem_movers.mpr (Or.inr (Or.inr (hpi ▸ hi))))
      · rw [mem_movers, mproc_swappedIn_of_ne mm₁ hpi, ← mem_movers] at hp
        exact allocMem_movers hok hmov hp

/-- The processes that `alloc.c` may move are among the movers of `swap_off`. -/
theorem movable_of_movers {live : Finset (Fin nrProcs)} (h : mm.movers ⊆ live) :
    mm.Movable live :=
  fun _ hp => h (mem_movers.mpr (hp.elim Or.inl fun hin => Or.inr (Or.inr hin)))

end Mm

namespace Sys

variable {s s' : Sys} {q pre rest : List (Fin nrProcs)}

/-- A state in which the calls do not fail. -/
structure Ready (s : Sys) : Prop where
  inv : s.Inv
  /-- There are always fewer holes than entries. -/
  room : s.blockCount + s.areas.length < nrHoles
  movable : s.mm.Movable s.live
  users : s.mm.Users

/-- There is an unused entry, because there are fewer blocks and areas than entries. -/
theorem Ready.length_lt (h : s.Ready) {m : List Extent} (hrep : s.mm.table.Represents m) :
    m.length < nrHoles :=
  (holes_le h.inv hrep).trans_lt h.room

/-- The bound counts images, wherever they are. -/
theorem blockCount_congr (hlen : ∀ p, (mm'.image p).len = (s.mm.image p).len) :
    blockCount { s with mm := mm' } = s.blockCount := by
  rw [blockCount, blockCount]
  simp only [hlen]

/-! ### `swap_out` and `alloc_mem` -/

/-- One more process is swapped out. -/
theorem Ready.swapOutProc {i : Fin nrProcs} (h : s.Ready) (hi : lowUser ≤ i.val)
    (hok : s.mm.swapOutProc i = .ok (some mm')) : Ready { s with mm := mm' } := by
  obtain ⟨⟨hareas, T, hholds, hdrops⟩, hroom, hmov, husers⟩ := h
  have hT := territory_of_drops hareas.territory hdrops
  obtain ⟨hcand, newBase, table, rfl⟩ := Mm.swapOutProc_ok hok
  have hlive := hmov i (Or.inl hcand)
  have hsize : ∀ p, ((s.mm.swappedOut i newBase table).mproc p).imageSize
      = (s.mm.mproc p).imageSize := by
    intro p
    by_cases hpi : p = i
    · subst hpi
      rw [Mm.mproc_swappedOut_self]
      rfl
    · rw [Mm.mproc_swappedOut_of_ne s.mm hpi]
  refine ⟨⟨hareas.congr (Mm.settings_swappedOut i newBase table), T,
    Mm.swapOutProc_holds hT hholds hlive hok, hdrops⟩, ?_, ?_, ?_⟩
  · rw [blockCount_congr fun p => congrArg UInt32.toNat (hsize p)]
    exact hroom
  · intro p hp
    by_cases hpi : p = i
    · exact hpi ▸ hlive
    · have hp : ((s.mm.swappedOut i newBase table).mproc p).mpFlags.swappable ∨
          ((s.mm.swappedOut i newBase table).mproc p).mpFlags.swapin := hp
      rw [Mm.mproc_swappedOut_of_ne s.mm hpi] at hp
      exact hmov p hp
  · refine ⟨hi, fun p hp => ?_⟩
    by_cases hpi : p = i
    · exact hpi ▸ hi
    · have hp : ((s.mm.swappedOut i newBase table).mproc p).mpFlags.onswap := hp
      rw [Mm.mproc_swappedOut_of_ne s.mm hpi] at hp
      exact husers.onswap p hp

/-- `swap_out` returns, and when it moved a process there is one candidate less. -/
theorem Ready.swapOut_cases (h : s.Ready) : s.mm.swapOut = .ok none ∨
    ∃ mm', s.mm.swapOut = .ok (some mm') ∧ mm'.outs.card < s.mm.outs.card ∧
      Ready { s with mm := mm' } := by
  obtain ⟨hareas, T, ⟨m, hrep, hm, hcover⟩, hdrops⟩ := h.inv
  have hT := territory_of_drops hareas.territory hdrops
  have hslot : ∀ i ∈ around Mm.nextProc s.mm.outswap Mm.userSlots, _ := fun i _ =>
    Mm.swapOutProc_total (i := i) hT hrep hm hcover fun hcand =>
      ⟨h.movable i (Or.inl hcand), h.length_lt hrep⟩
  have htotal : ∃ r, s.mm.swapOut = .ok r := by
    rw [Mm.swapOut_eq h.users.outswap]
    refine tryEach_total fun i hi => ?_
    rcases hslot i hi with ⟨hnone, -⟩ | ⟨newBase, table, m', -, hok, -⟩
    · exact ⟨none, hnone⟩
    · exact ⟨some (s.mm.swappedOut i newBase table), hok⟩
  obtain ⟨r, hr⟩ := htotal
  cases r with
  | none => exact Or.inl hr
  -- The slot that was chosen is that of a user who had not been swapped out yet.
  | some mm' =>
      obtain ⟨i, hi, hproc⟩ := Mm.swapOutLoop_user h.users.outswap hr
      refine Or.inr ⟨mm', hr, ?_, h.swapOutProc hi hproc⟩
      obtain ⟨hcand, newBase, table, rfl⟩ := Mm.swapOutProc_ok hproc
      have := Finset.card_erase_add_one (Mm.mem_outs.mpr ⟨hi, hcand⟩)
      rw [Mm.outs_swappedOut]
      omega

/-- The loop of `alloc_mem` returns, and the table has an unused entry then. -/
theorem Ready.allocLoop (h : s.Ready) (clicks : UInt32) {rounds : Nat}
    (hrounds : s.mm.outs.card < rounds) :
    ∃ b mm' m', Mm.allocLoop rounds s.mm clicks = .ok (b, mm') ∧
      mm'.table.Represents m' ∧ m'.length < nrHoles := by
  induction rounds generalizing s with
  | zero => omega
  | succ rounds ih =>
      -- Each round swaps out one more user, so that there is a last one.
      obtain ⟨hareas, T, ⟨m, ⟨hs, fs, hslots, rfl⟩, hm, hcover⟩, hdrops⟩ := h.inv
      have hT := territory_of_drops hareas.territory hdrops
      have hstop := hT.holes_stop_le hm (Mm.cover_le_of_holds hcover)
      have hlen := h.length_lt ⟨hs, fs, hslots, rfl⟩
      rcases Mm.fit_spec clicks hslots hm with
        ⟨prevPtr, l₁, i, l₂, rfl, hfit, hprev, hsize, -⟩ | ⟨hfit, -⟩
      · obtain ⟨table, m', hbite, hrep', -, rfl, -⟩ :=
          HoleTable.bite_cases prevPtr hslots hm hprev hsize (hstop _ (by simp))
        refine ⟨(s.mm.table.hole i).hBase, { s.mm with table := table }, _, ?_, hrep', ?_⟩
        · rw [Mm.allocLoop, hfit]
          simp only [bind, Except.bind, hbite]
          rfl
        · -- A hole at most gets smaller.
          have := length_dropFront_le (s.mm.table.extent i) clicks.toNat
          simp only [HoleTable.extents, List.length_append, List.length_map,
            List.length_cons] at hlen ⊢
          omega
      · rcases h.swapOut_cases with hswap | ⟨mm', hswap, hless, hready⟩
        · refine ⟨noMem, s.mm, _, ?_, ⟨hs, fs, hslots, rfl⟩, hlen⟩
          rw [Mm.allocLoop, hfit]
          simp only [bind, Except.bind, hswap]
          rfl
        · obtain ⟨b, mm'', m', hok, hrest⟩ := ih hready (show mm'.outs.card < rounds by omega)
          refine ⟨b, mm'', m', ?_, hrest⟩
          rw [Mm.allocLoop, hfit]
          simp only [bind, Except.bind, hswap]
          exact hok

/-- `alloc_mem` has rounds enough, and so it returns, with an unused entry left. -/
theorem Ready.allocMem (h : s.Ready) (clicks : UInt32) :
    ∃ b mm' m', s.mm.allocMem clicks = .ok (b, mm') ∧
      mm'.table.Represents m' ∧ m'.length < nrHoles :=
  h.allocLoop clicks (Nat.lt_succ_of_le s.mm.card_outs_le)

/-! ### `swap_in` -/

/-- A round of `swap_in` keeps what the calls need. -/
theorem Ready.swapInRound (h : s.Ready) (hround : Mm.SwapInRound s.mm mm') :
    Ready { s with mm := mm' } := by
  obtain ⟨⟨hareas, T, hholds, hdrops⟩, hroom, hmov, husers⟩ := h
  obtain ⟨hmov', T', hholds', hdrops'⟩ :=
    Mm.swapInRound_holds (territory_of_drops hareas.territory hdrops) hholds hmov hround
  refine ⟨⟨hareas.congr hround.settings, T', hholds', drops_add hdrops' hdrops⟩, ?_, hmov',
    husers.swapInRound hround⟩
  rw [blockCount_congr fun p => congrArg UInt32.toNat (hround.imageSize p)]
  exact hroom

/-- A process with the flag that got memory can be read in: its swap "memory" is still its own, and
the table has an entry for it. -/
theorem Ready.swapInProc {i : Fin nrProcs} {newBase : UInt32} {mm₁ : Mm} {m₁ : List Extent}
    (h : s.Ready) (hi : (s.mm.mproc i).mpFlags.swapin)
    (hok : s.mm.allocMem (s.mm.mproc i).imageSize = .ok (newBase, mm₁))
    (hrep : mm₁.table.Represents m₁) (hlen : m₁.length < nrHoles) :
    ∃ mm', mm₁.swapInProc i newBase (s.mm.mproc i).imageSize = .ok mm' := by
  obtain ⟨⟨hareas, T, hholds, hdrops⟩, -, hmov, -⟩ := h
  have hT := territory_of_drops hareas.territory hdrops
  have hlive := hmov i (Or.inr hi)
  -- `alloc_mem` has only taken clicks away from the holes and the images.
  have hle : ∃ T', mm₁.Holds s.live T' ∧ ∀ x, T' x ≤ T x := by
    rcases Mm.allocMem_holds hT hholds (Mm.allocMem_movable hmov hok).1 hok with
      ⟨-, hholds'⟩ | ⟨T', hholds', hsum⟩
    · exact ⟨T, hholds', fun x => le_refl _⟩
    · refine ⟨T', hholds', fun x => ?_⟩
      have := hsum x
      omega
  obtain ⟨T', ⟨m, hrep', hm, hcover⟩, hle⟩ := hle
  obtain rfl := hrep.unique hrep'
  have hown : ∀ x, cover (range (mm₁.mproc i).segD.memPhys (s.mm.mproc i).imageSize :: m₁) x
      ≤ T x := by
    -- The old image of the process and the holes do not overlap.
    intro x
    have hheld := Mm.held_erase mm₁ hlive x
    have hsum := hcover x
    have hbound := hle x
    rw [Mm.image, Mm.allocMem_imageSize hok] at hheld
    rw [cover_cons]
    omega
  rcases HoleTable.freeMem_cases hT hrep hm hown with ⟨table, m', hfree, -⟩ | ⟨hfull, -⟩
  · refine ⟨mm₁.swappedIn i newBase (s.mm.mproc i).imageSize table, ?_⟩
    exact Mm.swapInProc_eq hfree newBase
  · omega

/-- The loop of `swap_in` goes through the queue and returns. -/
theorem Ready.swapInLoop {fuel : Nat} (h : s.Ready) (hqueue : s.mm.Queue (pre ++ rest))
    (hfuel : rest.length ≤ fuel) :
    ∃ mm', Mm.swapInLoop fuel s.mm pre.getLast? = .ok mm' ∧ Ready { s with mm := mm' } := by
  -- Induction on the rounds, as for the order in which the processes are served.
  induction fuel generalizing s pre rest with
  | zero =>
      obtain rfl := List.eq_nil_of_length_eq_zero (Nat.le_zero.mp hfuel)
      refine ⟨s.mm, ?_, h⟩
      rw [Mm.swapInLoop, hqueue.link]
      rfl
  | succ fuel ih =>
      cases rest with
      | nil =>
          refine ⟨s.mm, ?_, h⟩
          rw [Mm.swapInLoop, hqueue.link]
          rfl
      | cons i rest =>
          rw [List.length_cons] at hfuel
          rw [Mm.swapInLoop, hqueue.link]
          simp only [List.head?_cons]
          cases hin : (s.mm.mproc i).mpFlags.swapin
          · exact ih (h.swapInRound (.relink _ _)) hqueue.unlink (by omega)
          · obtain ⟨newBase, mm₁, m₁, halloc, hrep, hlen⟩ := h.allocMem (s.mm.mproc i).imageSize
            have hlinks : mm₁.links = s.mm.links := congrArg Prod.fst (Mm.allocMem_inswap halloc)
            simp only [halloc, bind, Except.bind, Bool.not_true, Bool.false_eq_true, if_false]
            by_cases hne : newBase = noMem
            · -- No memory for the process: the loop goes on behind it.
              subst hne
              have hnext : mm₁.Queue ((pre ++ [i]) ++ rest) := by
                rw [List.append_assoc, List.singleton_append]
                exact hqueue.congr hlinks
              have hwait := h.swapInRound (.wait halloc)
              have hgo := ih hwait hnext (by omega)
              rw [List.getLast?_concat] at hgo
              exact hgo
            · obtain ⟨mm₂, hproc⟩ := h.swapInProc hin halloc hrep hlen
              have hmove := h.swapInRound (.move hin halloc hne hproc)
              have hqueue₂ : mm₂.Queue (pre ++ i :: rest) := by
                obtain ⟨table, -, rfl⟩ := Mm.swapInProc_ok hproc
                have hmoved : (mm₁.swappedIn i newBase (s.mm.mproc i).imageSize table).links
                    = mm₁.links := congrArg Prod.fst (Mm.inswap_swappedIn mm₁ i newBase _ table)
                exact hqueue.congr (hmoved.trans hlinks)
              rw [if_neg hne, hproc]
              exact ih (hmove.swapInRound (.relink _ _)) hqueue₂.unlink (by omega)

/-- `swap_in` comes to the end of the queue. -/
theorem Ready.swapIn (h : s.Ready) (hqueue : s.mm.Queue q) :
    ∃ mm', s.mm.swapIn = .ok mm' ∧ Ready { s with mm := mm' } :=
  @Ready.swapInLoop _ s [] q _ h hqueue hqueue.length_le

/-! ### `swap_off` -/

/-- `swap_inqueue` of a live process moves nothing. -/
theorem Ready.swapInqueue {i : Fin nrProcs} (h : s.Ready) (hi : i ∈ s.live)
    (hok : s.mm.swapInqueue i = .ok mm') : Ready { s with mm := mm' } := by
  obtain ⟨htable, hset, himage⟩ := Mm.swapInqueue_frame hok
  obtain ⟨hothers, honswap⟩ := Mm.swapInqueue_flags hok
  refine ⟨inv_frame h.inv htable hset fun p _ => himage p, ?_, ?_, ?_⟩
  · rw [blockCount_congr fun p => congrArg Extent.len (himage p)]
    exact h.room
  · intro p hp
    by_cases hpi : p = i
    · exact hpi ▸ hi
    · rw [show ((({ s with mm := mm' } : Sys).mm).mproc p).mpFlags = (s.mm.mproc p).mpFlags from
        hothers p hpi] at hp
      exact h.movable p hp
  · refine h.users.frame ?_ fun p hp => ?_
    · rcases Mm.swapInqueue_ok hok with rfl | ⟨pmp, rfl⟩
      · rfl
      · show ((s.mm.setLink pmp (some i)).setLink (some i) none).outswap = s.mm.outswap
        rw [Mm.outswap_setLink, Mm.outswap_setLink]
    · rwa [← honswap p]

/-- All processes on swap are put on the queue. -/
theorem Ready.queueSwapped (procs : List (Fin nrProcs)) (h : s.Ready) (hlined : s.Lined q)
    (hon : ∀ p, (s.mm.mproc p).mpFlags.onswap → p ∈ s.live) :
    ∃ mm' q', Mm.queueSwapped procs s.mm = .ok mm' ∧ Lined { s with mm := mm' } q' ∧
      Ready { s with mm := mm' } := by
  induction procs generalizing s q with
  | nil => exact ⟨s.mm, q, rfl, hlined, h⟩
  | cons i procs ih =>
      rw [Mm.queueSwapped]
      by_cases hi : (s.mm.mproc i).mpFlags.onswap
      · obtain ⟨mm₁, hok, hlined₁⟩ := hlined.swapInqueue (hon i hi)
        have hready := h.swapInqueue (hon i hi) hok
        rw [if_pos hi, hok]
        refine ih hready hlined₁ fun p hp => hon p ?_
        rwa [← (Mm.swapInqueue_flags hok).2 p]
      · rw [if_neg hi]
        exact ih h hlined hon

/-- `swap_off` returns, unless all processes are in memory after its `swap_in` and the only hole is
one of the swap area. Then it reads the link of `NIL_HOLE`. -/
theorem Ready.swapOff (h : s.Ready) (hlined : s.Lined q)
    (hon : ∀ p, (s.mm.mproc p).mpFlags.onswap → p ∈ s.live) :
    (∃ r, s.mm.swapOff = .ok r) ∨ s.mm.swapOff = .error .nilHole ∧
      ∃ mm₀ mm₁ e, Mm.queueSwapped Mm.userProcs s.mm = .ok mm₀ ∧ mm₀.swapIn = .ok mm₁ ∧ mm₁.AllIn ∧
        mm₁.table.Represents [e] ∧ mm₁.swapBase.toNat ≤ e.base := by
  by_cases hfd : s.mm.swapFd = -1
  · refine Or.inl ⟨(.ok, s.mm), ?_⟩
    rw [Mm.swapOff, if_pos hfd]
    rfl
  obtain ⟨mm₀, q₀, hqueue, hlined₀, hready₀⟩ := h.queueSwapped Mm.userProcs hlined hon
  obtain ⟨mm₁, hin, hready₁⟩ := hready₀.swapIn hlined₀.queue
  by_cases hall : mm₁.AllIn
  · rw [Mm.swapOff_of_allIn hfd hqueue hin hall]
    obtain ⟨-, T, ⟨m, ⟨hs, fs, hslots, rfl⟩, hm, -⟩, -⟩ := hready₁.inv
    have hslots : mm₁.table.Slots hs fs := hslots
    obtain ⟨low, high, rfl, hlow, hhigh⟩ := Mm.exists_split_swapBase hm
    have hgood : (low = [] → high = []) → ∃ r, (mm₁.table.removeSwapHole mm₁.swapBase
        ((nrHoles + 1) * nrHoles) none mm₁.table.holeHead).map
          (fun table => (Mm.SwapOffResult.ok, { mm₁ with table := table, swapFd := -1 }))
        = .ok r := by
      intro hfirst
      obtain ⟨table, hok, -⟩ := HoleTable.removeSwapHole_ok hslots hlow hhigh hfirst
      rw [hok]
      exact ⟨_, rfl⟩
    -- Only with no hole of memory in front the first step of the loop matters.
    cases low with
    | cons a low => exact Or.inl (hgood fun hnil => by cases hnil)
    | nil =>
        rw [List.nil_append] at hslots
        cases high with
        | nil => exact Or.inl (hgood fun _ => rfl)
        | cons a high =>
            cases high with
            | nil =>
                have ha := hhigh a List.mem_cons_self
                refine Or.inr ⟨?_, mm₀, mm₁, mm₁.table.extent a, hqueue, hin, hall,
                  ⟨[a], fs, hslots, rfl⟩, UInt32.le_iff_toNat_le.mp ha⟩
                rw [HoleTable.removeSwapHole_single hslots ha]
                rfl
            | cons b high =>
                obtain ⟨table, hok, -⟩ := HoleTable.removeSwapHole_cons hslots hhigh
                rw [hok]
                exact Or.inl ⟨_, rfl⟩
  · exact Or.inl ⟨_, Mm.swapOff_of_not_allIn hfd hqueue hin hall⟩

/-! ### `swap_on` -/

/-- The swap area can be freed: it is above the areas, and the table has an entry for it. -/
theorem Ready.freeArea (h : s.Ready) (hfd : s.mm.swapFd = -1) {size : UInt32}
    (hne : s.mm.swapClicks size ≠ 0) :
    ∃ table, s.mm.table.freeMem s.mm.swapBase (s.mm.swapClicks size) = .ok table := by
  obtain ⟨⟨hterr, hspare⟩, T, ⟨m, hrep, hm, hcover⟩, hdrops⟩ := h.inv
  set area := range s.mm.swapBase (s.mm.swapClicks size) with harea
  have hlen := s.mm.swapClicks_le size
  obtain ⟨hpos, hstop, hbelow⟩ := hspare hfd (Mm.swapMaxsize_ne_zero hne)
  have hbase := s.mm.swapBase.toNat_lt
  have hmem : ∀ x, x ∈ area ↔ s.mm.swapBase.toNat ≤ x ∧
      x < s.mm.swapBase.toNat + (s.mm.swapClicks size).toNat := fun x => Iff.rfl
  -- A hole is in the areas, so that it ends below the boundary.
  have hhole : ∀ x, cover m x ≤ 1 ∧ (cover m x ≠ 0 → x + 1 < s.mm.swapBase.toNat) := by
    intro x
    have hle : T x + cover s.blocks x ≤ cover s.areas x := hdrops.le x
    have hsum := hcover x
    have hone := hterr.le_one x
    exact ⟨by omega, fun hx => hbelow x (by omega)⟩
  -- The holes together with the area, and the click below the boundary is still free of both.
  have hterr' : Territory fun x => cover m x + if x ∈ area then 1 else 0 := by
    refine ⟨fun x => ?_, fun x hx => ?_, s.mm.swapBase.toNat - 1, by omega, ?_⟩
    · have := hhole x
      split_ifs with hx
      · have := ((hmem x).mp hx).1
        omega
      · omega
    · have := hhole x
      split_ifs at hx with hxa
      · have := ((hmem x).mp hxa).2
        omega
      · omega
    · have := hhole (s.mm.swapBase.toNat - 1)
      rw [if_neg (by rw [hmem]; omega)]
      omega
  have hle : ∀ x, cover (area :: m) x ≤ cover m x + if x ∈ area then 1 else 0 := by
    intro x
    rw [cover_cons]
    omega
  rcases HoleTable.freeMem_cases hterr' hrep hm hle with ⟨table, m', hok, -⟩ | ⟨hfull, -⟩
  · exact ⟨table, hok⟩
  · have := h.length_lt hrep
    omega

/-- `swap_on` has an entry for the swap area. -/
theorem Ready.swapOn (h : s.Ready) (fd : Int) (offset size : UInt32) :
    ∃ r, s.mm.swapOn fd offset size = .ok r := by
  rw [Mm.swapOn]
  dsimp only
  split_ifs with hfd hneg hsize
  · exact ⟨_, rfl⟩
  · exact ⟨_, rfl⟩
  · obtain ⟨table, hok⟩ := h.freeArea (not_not.mp hfd) (UInt32.pos_iff_ne_zero.mp hsize)
    refine ⟨(.unset, { s.mm.openSwap fd offset with table := table }), ?_⟩
    show ((s.mm.table.freeMem s.mm.swapBase (s.mm.swapClicks size) >>= _) >>= _) = _
    rw [hok]
    rfl
  · exact ⟨_, rfl⟩

/-! ### Runs -/

/-- The invariant of the runs, with the links of the queue and the flags. -/
structure Sound (s : Sys) : Prop where
  inv : s.Inv
  lined : ∃ q, s.Lined q
  movers : s.mm.movers ⊆ s.live
  users : s.mm.Users

/-- In a sound state with room in the table the calls do not fail. -/
theorem Sound.ready (h : s.Sound) (hroom : s.blockCount + s.areas.length < nrHoles) : s.Ready :=
  ⟨h.inv, hroom, Mm.movable_of_movers h.movers, h.users⟩

/-- The process table and the variables of the queue have their initial values. -/
structure Cleared (s : Sys) : Prop where
  flags : ∀ p, (s.mm.mproc p).mpFlags = MpFlags.none
  inQueue : s.mm.inQueue = none
  outswap : lowUser ≤ s.mm.outswap.val

end Sys

end

/-! ### A small run -/

section
attribute [local instance] tinyConfig

end

end Soi.Pamiec
