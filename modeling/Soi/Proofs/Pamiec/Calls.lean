import Soi.Lib.Run
import Soi.Proofs.Pamiec.Territory

/-!
# `Soi.Proofs.Pamiec.Calls`: the calls that move images

`swap_out`, `alloc_mem` and `swap_in` on a state that has a territory `T`. The inversion lemmas
`swapOutProc_cases`, `swapOutProc_ok`, `allocLoop_cases`, `swapInProc_ok` and `swapInLoop_run`
say which states a call can lead to. Each call is then stated as a change of `T`:

* `swapOutProc_holds`: moving an image to the swap "memory" keeps `T`;
* `allocMem_holds`: `alloc_mem` takes the block that it returns off `T`;
* `swapIn_holds`: `swap_in` keeps `T`, but for a block at address 0.

`SwapsOut` are the processes that one `alloc_mem` swaps out, one after the other, and
`SwapInRound` is one round of the loop of `swap_in`. `SwapsOut.keeps` is the rule for
invariants of the first, and `SwapsOut.induct` the one for invariants of the live processes.
-/

set_option autoImplicit false

namespace Soi.Pamiec

open Soi.Lib

section
variable [MmConfig] {mm mm' : Mm} {live : Finset (Fin nrProcs)} {T : Nat → Nat}

namespace Mm

/-! ### `swap_out` -/

/-- The state after `swap_out` moved the image of `i` to `newBase` and freed its memory, which
left `table`. -/
def swappedOut (mm : Mm) (i : Fin nrProcs) (newBase : UInt32)
    (table : HoleTable nrHoles) : Mm :=
  let rmp := mm.mproc i
  let mm := mm.lseek (mm.swapFileOff newBase)
  let mm := mm.writeSeg i (rmp.imageSize <<< UInt32.ofNat clickShift)
  let rmp := { rmp.moveTo newBase with mpFlags := { rmp.mpFlags with onswap := true } }
  { mm.setProc i rmp with table := table, outswap := i }

/-- The process that was swapped out has its segments in the swap area, and the flag `ONSWAP`. -/
theorem mproc_swappedOut_self (mm : Mm) (i : Fin nrProcs) (newBase : UInt32)
    (table : HoleTable nrHoles) : (mm.swappedOut i newBase table).mproc i =
      { (mm.mproc i).moveTo newBase with
        mpFlags := { (mm.mproc i).mpFlags with onswap := true } } := by
  simp [swappedOut, setProc, lseek, writeSeg]

/-- The other processes stay as they are. -/
theorem mproc_swappedOut_of_ne (mm : Mm) {i p : Fin nrProcs} (h : p ≠ i) (newBase : UInt32)
    (table : HoleTable nrHoles) : (mm.swappedOut i newBase table).mproc p = mm.mproc p := by
  simp [swappedOut, setProc, lseek, writeSeg, h]

/-- The image of the process is at its new place, with its old size. -/
theorem image_swappedOut_self (mm : Mm) (i : Fin nrProcs) (newBase : UInt32)
    (table : HoleTable nrHoles) : (mm.swappedOut i newBase table).image i =
      range newBase (mm.mproc i).imageSize := by
  rw [image, mproc_swappedOut_self]
  rfl

/-- The images of the other processes stay where they are. -/
theorem image_swappedOut_of_ne (mm : Mm) {i p : Fin nrProcs} (h : p ≠ i) (newBase : UInt32)
    (table : HoleTable nrHoles) : (mm.swappedOut i newBase table).image p = mm.image p := by
  rw [image, image, mproc_swappedOut_of_ne mm h]

/-- The body of the loop of `swap_out`. Either `i` is no candidate or no swap hole is big
enough for its image, or the image goes to the front of the swap hole `hp`, and what is left
is the `free_mem` of its old place. -/
theorem swapOutProc_cases {hs fs : List (Fin nrHoles)} (hslots : mm.table.Slots hs fs)
    (hm : Coalesced (mm.table.extents hs))
    (hstop : ∀ e ∈ mm.table.extents hs, e.stop ≤ 2 ^ 32) (i : Fin nrProcs) :
    (mm.swapOutProc i = .ok none ∧
        ((mm.mproc i).mpFlags.swappable = false ∨
          ∀ a ∈ hs, mm.swapBase ≤ (mm.table.hole a).hBase →
            (mm.table.hole a).hLen < (mm.mproc i).imageSize)) ∨
      ∃ hp table₁ m₁, (mm.mproc i).mpFlags.swappable ∧ hp ∈ hs ∧
        mm.swapBase ≤ (mm.table.hole hp).hBase ∧
        (mm.mproc i).imageSize ≤ (mm.table.hole hp).hLen ∧
        HoleTable.Represents table₁ m₁ ∧ Coalesced m₁ ∧ m₁.length ≤ hs.length ∧
        (∀ x, cover (range (mm.table.hole hp).hBase (mm.mproc i).imageSize :: m₁) x
          = cover (mm.table.extents hs) x) ∧
        mm.swapOutProc i =
          (table₁.freeMem (mm.mproc i).segD.memPhys (mm.mproc i).imageSize).map
            fun table => some (mm.swappedOut i (mm.table.hole hp).hBase table) := by
  by_cases hcand : (mm.mproc i).mpFlags.swappable
  · have hflags : (mm.mproc i).mpFlags.blocked = true ∧ (mm.mproc i).mpFlags.avoided = false := by
      simpa [MpFlags.swappable] using hcand
    -- A candidate: it moves exactly when the scan finds a swap hole that is big enough.
    rcases HoleTable.findSwapHole_loop mm.swapBase (mm.mproc i).imageSize none hslots.holes
      hslots.length_le with ⟨l₁, hp, l₂, rfl, hrun, hbase, hlen⟩ | ⟨hrun, hall⟩
    · obtain ⟨table₁, m₁, hbite, hrep, hm₁, hshape, hcover⟩ :=
        HoleTable.bite_cases (l₁.getLast?.or none) hslots hm (by simp) hlen
          (hstop _ (by simp))
      refine Or.inr ⟨hp, table₁, m₁, hcand, by simp, hbase, hlen, hrep, hm₁, ?_, hcover, ?_⟩
      · have := length_dropFront_le (mm.table.extent hp) (mm.mproc i).imageSize.toNat
        simp only [hshape, List.length_append, HoleTable.extents, List.length_map, List.length_cons]
        omega
      rw [swapOutProc]
      simp only [hflags.1, hflags.2, hrun, hbite, bind, Except.bind, lseek, writeSeg]
      cases table₁.freeMem (mm.mproc i).segD.memPhys (mm.mproc i).imageSize <;> rfl
    · refine Or.inl ⟨?_, Or.inr hall⟩
      rw [swapOutProc]
      simp only [hflags.1, hflags.2, hrun, bind, Except.bind]
      rfl
  · -- The two tests of the flags, one after the other.
    refine Or.inl ⟨?_, Or.inl (by simpa using hcand)⟩
    rw [swapOutProc]
    cases hb : (mm.mproc i).mpFlags.blocked
    · rfl
    · have ha : (mm.mproc i).mpFlags.avoided = true := by
        simpa [MpFlags.swappable, hb] using hcand
      simp [ha, pure, Except.pure]

/-- A successful pass of the loop of `swap_out` moved the candidate `i`. -/
theorem swapOutProc_ok {i : Fin nrProcs} (hok : mm.swapOutProc i = .ok (some mm')) :
    (mm.mproc i).mpFlags.swappable ∧ ∃ newBase table, mm' = mm.swappedOut i newBase table := by
  rw [swapOutProc] at hok
  cases hb : (mm.mproc i).mpFlags.blocked
  · simp [hb, pure, Except.pure] at hok
  cases ha : (mm.mproc i).mpFlags.avoided
  · refine ⟨by simp [MpFlags.swappable, hb, ha], ?_⟩
    simp only [hb, ha] at hok
    obtain ⟨r, -, hok⟩ := exists_of_bind hok
    cases r with
    | none => cases hok
    | some r =>
        obtain ⟨⟨newBase, table₁⟩, -, hok⟩ := exists_of_bind hok
        obtain ⟨table, -, hok⟩ := exists_of_bind hok
        exact ⟨newBase, table, (Option.some.inj (Except.ok.inj hok)).symm⟩
  · simp [hb, ha, pure, Except.pure] at hok

/-- An image moves: its new place comes from outside the holes `m` and the images, and its old
place is freed. -/
theorem relocate_holds {i : Fin nrProcs} {t : HoleTable nrHoles} {m : List Extent}
    {newBase : UInt32} (hT : Territory T) (hi : i ∈ live) (hrep : t.Represents m)
    (hm : Coalesced m)
    (hcover : ∀ x, cover (range newBase (mm.mproc i).imageSize :: m) x + mm.held live x = T x)
    (hok : t.freeMem (mm.mproc i).segD.memPhys (mm.mproc i).imageSize = .ok mm'.table)
    (himage : mm'.image i = range newBase (mm.mproc i).imageSize)
    (hrest : ∀ p ∈ live, p ≠ i → mm'.image p = mm.image p) : mm'.Holds live T := by
  -- The old place still belongs to `i`, and nobody else has it.
  have hle : ∀ x, cover (range (mm.mproc i).segD.memPhys (mm.mproc i).imageSize :: m) x
      ≤ T x := by
    intro x
    have hheld := held_erase mm hi x
    have := hcover x
    rw [cover_cons] at this ⊢
    rw [image] at hheld
    omega
  rcases HoleTable.freeMem_cases hT hrep hm hle with
    ⟨t', m', hfree, hrep', hm', -, hcover'⟩ | ⟨-, hfull⟩
  · rw [hfree] at hok
    refine ⟨m', Except.ok.inj hok ▸ hrep', hm', ?_⟩
    intro x
    -- The old place is a hole now, and the new place was not counted before.
    have hmove := held_move mm mm' hi hrest x
    have := hcover x
    rw [himage, image] at hmove
    rw [cover_cons] at this
    rw [hcover', cover_cons, ← hcover x, cover_cons]
    omega
  · rw [hfull] at hok
    cases hok

/-- A successful pass took the new place of the image out of a hole at or above `swap_base`,
and then freed the old place. -/
theorem swapOutProc_freed {m : List Extent} {i : Fin nrProcs} (hT : Territory T)
    (hrep : mm.table.Represents m) (hm : Coalesced m) (hle : ∀ x, cover m x ≤ T x)
    (hok : mm.swapOutProc i = .ok (some mm')) :
    ∃ newBase table₁ m₁ table, mm.swapBase ≤ newBase ∧ 0 < cover m newBase.toNat ∧
      HoleTable.Represents table₁ m₁ ∧ Coalesced m₁ ∧
      (∀ x, cover (range newBase (mm.mproc i).imageSize :: m₁) x = cover m x) ∧
      table₁.freeMem (mm.mproc i).segD.memPhys (mm.mproc i).imageSize = .ok table ∧
      mm' = mm.swappedOut i newBase table := by
  obtain ⟨hs, fs, hslots, rfl⟩ := hrep
  rcases swapOutProc_cases hslots hm (hT.holes_stop_le hm hle) i with
    ⟨hnone, -⟩ | ⟨hp, table₁, m₁, -, hmem, hbase, -, hrep, hm₁, -, hcover, hrun⟩
  · rw [hnone] at hok
    cases hok
  · rw [hrun] at hok
    have hhole : mm.table.extent hp ∈ mm.table.extents hs := List.mem_map_of_mem hmem
    have hstart : (mm.table.hole hp).hBase.toNat ∈ mm.table.extent hp :=
      ⟨le_refl _, Nat.lt_add_of_pos_right (hm.pos _ hhole)⟩
    cases hfree : table₁.freeMem (mm.mproc i).segD.memPhys (mm.mproc i).imageSize with
    | error e =>
        rw [hfree] at hok
        cases hok
    | ok table =>
        rw [hfree] at hok
        exact ⟨_, table₁, m₁, table, hbase, cover_pos_of_mem hhole hstart, hrep, hm₁, hcover,
          hfree, (Option.some.inj (Except.ok.inj hok)).symm⟩

/-- Swapping out a live process keeps the clicks that the memory manager has. -/
theorem swapOutProc_holds {i : Fin nrProcs} (hT : Territory T) (h : mm.Holds live T)
    (hi : i ∈ live) (hok : mm.swapOutProc i = .ok (some mm')) : mm'.Holds live T := by
  obtain ⟨m, hrep, hm, hcover⟩ := h
  obtain ⟨newBase, table₁, m₁, table, -, -, hrep₁, hm₁, hcover₁, hfree, rfl⟩ :=
    swapOutProc_freed hT hrep hm (cover_le_of_holds hcover) hok
  have hsum : ∀ x, cover (range newBase (mm.mproc i).imageSize :: m₁) x + mm.held live x = T x := by
    intro x
    rw [hcover₁, hcover]
  exact relocate_holds hT hi hrep₁ hm₁ hsum hfree (image_swappedOut_self mm i newBase table)
    fun p _ hne => image_swappedOut_of_ne mm hne newBase table

/-- The new place of the image is at or above `swap_base`, and it was a part of a hole. -/
theorem swapOutProc_place {m : List Extent} {i : Fin nrProcs} (hT : Territory T)
    (hrep : mm.table.Represents m) (hm : Coalesced m) (hle : ∀ x, cover m x ≤ T x)
    (hok : mm.swapOutProc i = .ok (some mm')) :
    ∃ newBase table, mm' = mm.swappedOut i newBase table ∧ mm.swapBase ≤ newBase ∧
      0 < cover m newBase.toNat ∧
      ∀ x ∈ range newBase (mm.mproc i).imageSize, 0 < cover m x := by
  obtain ⟨newBase, table₁, m₁, table, hbase, hpos, -, -, hcover, -, hmm'⟩ :=
    swapOutProc_freed hT hrep hm hle hok
  refine ⟨newBase, table, hmm', hbase, hpos, ?_⟩
  intro x hx
  rw [← hcover x]
  exact cover_pos_of_mem List.mem_cons_self hx

/-- When the loop returns a state, the body of the loop has made it for some process. -/
theorem swapOutLoop_ok {fuel : Nat} {i : Fin nrProcs}
    (hok : mm.swapOutLoop fuel i = .ok (some mm')) : ∃ j, mm.swapOutProc j = .ok (some mm') := by
  induction fuel generalizing i with
  | zero => cases hok
  | succ fuel ih =>
      rw [swapOutLoop] at hok
      obtain ⟨r, hproc, hok⟩ := exists_of_bind hok
      cases r with
      | none =>
          dsimp only at hok
          split_ifs at hok
          · cases hok
          · -- This slot did not help, so the loop looks at the next one.
            exact ih hok
      | some mm₁ => exact ⟨nextProc i, hproc.trans hok⟩

/-- The processes swapped out in one `alloc_mem`, one after the other. -/
def SwapsOut : Mm → Mm → Prop := Relation.ReflTransGen fun mm mm' => mm.swapOut = .ok (some mm')

/-- What is kept when one candidate is swapped out is kept when any number of them are. -/
theorem SwapsOut.keeps {P : Mm → Prop} (h : SwapsOut mm mm') (h0 : P mm)
    (hstep : ∀ (a : Mm) i newBase table, P a → (a.mproc i).mpFlags.swappable →
      P (a.swappedOut i newBase table)) : P mm' := by
  refine Run.invariant h h0 ?_
  intro a b ha hab
  obtain ⟨i, hproc⟩ := swapOutLoop_ok hab
  obtain ⟨hcand, newBase, table, rfl⟩ := swapOutProc_ok hproc
  exact hstep a i newBase table ha hcand

/-- A process on swap stays where it is while others are swapped out. -/
theorem SwapsOut.mproc_of_onswap (h : SwapsOut mm mm') {p : Fin nrProcs}
    (hp : (mm.mproc p).mpFlags.onswap) : mm'.mproc p = mm.mproc p := by
  refine h.keeps (P := fun a => a.mproc p = mm.mproc p) rfl ?_
  intro a i newBase table ha hcand
  have hne : p ≠ i := by
    rintro rfl
    simp [ha, MpFlags.swappable, MpFlags.avoided, hp] at hcand
  rw [mproc_swappedOut_of_ne _ hne, ha]

/-- What holds before and is kept when a live process is swapped out holds after any number of
them, when the whole call only moved live processes. -/
theorem SwapsOut.induct {P : Mm → Prop} (h : SwapsOut mm mm') (hmoves : mm.Moves mm' live)
    (h0 : P mm) (hstep : ∀ a i b, P a → i ∈ live → a.swapOutProc i = .ok (some b) → P b) :
    P mm' := by
  induction h using Relation.ReflTransGen.head_induction_on with
  | refl => exact h0
  | head hswap hrest ih =>
      rename_i a b
      obtain ⟨i, hproc⟩ := swapOutLoop_ok hswap
      obtain ⟨hcand, newBase, table, rfl⟩ := swapOutProc_ok hproc
      -- `i` is on swap now, so the rest of the run leaves it alone. As the whole call moved `i`, it
      -- is live.
      have hon : ((a.swappedOut i newBase table).mproc i).mpFlags.onswap := by
        rw [mproc_swappedOut_self]
      have hstay := SwapsOut.mproc_of_onswap hrest hon
      have hi : i ∈ live := by
        refine hmoves i ?_
        intro heq
        rw [← heq, hstay] at hcand
        simp [MpFlags.swappable, MpFlags.avoided, hon] at hcand
      refine ih ?_ (hstep a i _ h0 hi hproc)
      intro p hp
      by_cases hpi : p = i
      · exact hpi ▸ hi
      · rw [mproc_swappedOut_of_ne _ hpi] at hp
        exact hmoves p hp

/-- `alloc_mem` swaps out some processes. Then it carves the block out of the hole that it
picked, or there is neither such a hole nor a process to swap out. -/
theorem allocLoop_cases {rounds : Nat} {clicks b : UInt32}
    (hok : allocLoop rounds mm clicks = .ok (b, mm')) :
    ∃ mm₁, SwapsOut mm mm₁ ∧
      ((∃ prevPtr hp table, mm₁.fit clicks = .ok (some (prevPtr, hp)) ∧
          mm₁.table.bite prevPtr hp clicks = .ok (b, table) ∧ mm' = { mm₁ with table := table }) ∨
        (mm₁.fit clicks = .ok none ∧ mm₁.swapOut = .ok none ∧ b = noMem ∧ mm' = mm₁)) := by
  -- Induction on the rounds. A round ends the loop, or it swaps out one process and starts again.
  induction rounds generalizing mm with
  | zero => cases hok
  | succ rounds ih =>
      rw [allocLoop] at hok
      obtain ⟨r, hfit, hok⟩ := exists_of_bind hok
      cases r with
      | some r =>
          obtain ⟨⟨oldBase, table⟩, hbite, hok⟩ := exists_of_bind hok
          obtain ⟨rfl, rfl⟩ := Prod.mk.inj (Except.ok.inj hok)
          exact ⟨mm, .refl, Or.inl ⟨r.1, r.2, table, hfit, hbite, rfl⟩⟩
      | none =>
          obtain ⟨r, hswap, hok⟩ := exists_of_bind hok
          cases r with
          | none =>
              obtain ⟨rfl, rfl⟩ := Prod.mk.inj (Except.ok.inj hok)
              exact ⟨mm, .refl, Or.inr ⟨hfit, hswap, rfl, rfl⟩⟩
          | some mm₂ =>
              obtain ⟨mm₁, hswaps, hcases⟩ := ih hok
              exact ⟨mm₁, hswaps.head hswap, hcases⟩

/-- The block carved out is the front of the hole that the scan chose. -/
theorem carve_cases {hs fs : List (Fin nrHoles)} {prevPtr : Option (Fin nrHoles)}
    {hp : Fin nrHoles} {clicks b : UInt32} {table : HoleTable nrHoles}
    (hslots : mm.table.Slots hs fs) (hm : Coalesced (mm.table.extents hs))
    (hstop : ∀ e ∈ mm.table.extents hs, e.stop ≤ 2 ^ 32)
    (hfit : mm.fit clicks = .ok (some (prevPtr, hp)))
    (hbite : mm.table.bite prevPtr hp clicks = .ok (b, table)) :
    ∃ l₁ l₂ m', hs = l₁ ++ hp :: l₂ ∧ b = (mm.table.hole hp).hBase ∧
      clicks ≤ (mm.table.hole hp).hLen ∧
      ((mm.table.hole hp).hBase < mm.swapBase ∨
        mm.worstFit ≠ 0 ∧ l₁ = [] ∧ mm.swapBase ≤ (mm.table.hole hp).hBase) ∧
      table.Represents m' ∧ Coalesced m' ∧
      m' = mm.table.extents l₁ ++ (mm.table.extent hp).dropFront clicks.toNat
        ++ mm.table.extents l₂ ∧
      ∀ x, cover (range b clicks :: m') x = cover (mm.table.extents hs) x := by
  rcases fit_spec clicks hslots hm with
    ⟨prev, l₁, i, l₂, rfl, hrun, hprev, hlen, hplace⟩ | ⟨hnone, -⟩
  · rw [hrun] at hfit
    obtain ⟨rfl, rfl⟩ := Prod.mk.inj (Option.some.inj (Except.ok.inj hfit))
    obtain ⟨table', m', hbite', hrep', hm', heq, hcover'⟩ :=
      HoleTable.bite_cases prev hslots hm hprev hlen (hstop _ (by simp))
    rw [hbite'] at hbite
    obtain ⟨rfl, rfl⟩ := Prod.mk.inj (Except.ok.inj hbite)
    exact ⟨l₁, l₂, m', rfl, rfl, hlen, hplace, hrep', hm', heq, hcover'⟩
  · rw [hnone] at hfit
    cases hfit

/-- `alloc_mem` takes the block that it returns off the clicks that the memory manager has. It
takes nothing when there is neither a hole nor a process to swap out. -/
theorem allocMem_holds {clicks b : UInt32} (hT : Territory T) (h : mm.Holds live T)
    (hmoves : mm.Moves mm' live) (hok : mm.allocMem clicks = .ok (b, mm')) :
    (b = noMem ∧ mm'.Holds live T) ∨
      ∃ T', mm'.Holds live T' ∧ ∀ x, T' x + (if x ∈ range b clicks then 1 else 0) = T x := by
  obtain ⟨mm₁, hswaps, hcases⟩ := allocLoop_cases hok
  have hmoves₁ : mm.Moves mm₁ live := by
    rcases hcases with ⟨_, _, _, _, _, rfl⟩ | ⟨_, _, _, rfl⟩
    · exact hmoves
    · exact hmoves
  have h₁ : mm₁.Holds live T :=
    hswaps.induct hmoves₁ h fun a i b ha hi hab => swapOutProc_holds hT ha hi hab
  rcases hcases with ⟨prevPtr, hp, table, hfit, hbite, rfl⟩ | ⟨-, -, rfl, rfl⟩
  · obtain ⟨m, ⟨hs, fs, hslots, rfl⟩, hm, hcover⟩ := h₁
    have hstop := hT.holes_stop_le hm (cover_le_of_holds hcover)
    obtain ⟨l₁, l₂, m', -, -, -, -, hrep', hm', -, hcover'⟩ :=
      carve_cases hslots hm hstop hfit hbite
    -- The images stay where they are, and the block is missing from the holes.
    refine Or.inr ⟨fun x => cover m' x + mm₁.held live x, ⟨m', hrep', hm', fun x => rfl⟩, ?_⟩
    intro x
    have := hcover' x
    rw [cover_cons] at this
    simp only [← hcover x]
    omega
  · exact Or.inl ⟨rfl, h₁⟩

/-! ### `swap_in` -/

/-- While other processes are swapped out the sizes of the images stay. -/
theorem SwapsOut.imageSize (h : SwapsOut mm mm') (p : Fin nrProcs) :
    (mm'.mproc p).imageSize = (mm.mproc p).imageSize := by
  refine h.keeps (P := fun a => (a.mproc p).imageSize = (mm.mproc p).imageSize) rfl ?_
  intro a i newBase table ha _
  by_cases hpi : p = i
  · subst hpi
    rw [mproc_swappedOut_self]
    exact ha
  · rw [mproc_swappedOut_of_ne _ hpi]
    exact ha

/-- Only movable processes are swapped out, and then the rest is still movable. -/
theorem SwapsOut.movable (h : SwapsOut mm mm') (hmov : mm.Movable live) :
    mm.Moves mm' live ∧ mm'.Movable live := by
  refine h.keeps (P := fun a => mm.Moves a live ∧ a.Movable live)
    ⟨fun p hp => absurd rfl hp, hmov⟩ ?_
  rintro a i newBase table ⟨hmoves, hmov'⟩ hcand
  have hi := hmov' i (Or.inl hcand)
  constructor
  · intro p hp
    by_cases hpi : p = i
    · exact hpi ▸ hi
    · rw [mproc_swappedOut_of_ne _ hpi] at hp
      exact hmoves p hp
  · intro p hp
    by_cases hpi : p = i
    · exact hpi ▸ hi
    · rw [mproc_swappedOut_of_ne _ hpi] at hp
      exact hmov' p hp

/-- The processes that `alloc_mem` moves are movable ones. -/
theorem allocMem_movable {clicks b : UInt32} (hmov : mm.Movable live)
    (hok : mm.allocMem clicks = .ok (b, mm')) : mm.Moves mm' live ∧ mm'.Movable live := by
  obtain ⟨mm₁, hswaps, hcases⟩ := allocLoop_cases hok
  have h := hswaps.movable hmov
  rcases hcases with ⟨_, _, _, _, _, rfl⟩ | ⟨_, _, _, rfl⟩
  · exact h
  · exact h

/-- The state after `swap_in` moved the image of `i` to `newBase` and freed the swap "memory",
which left `table`. -/
def swappedIn (mm : Mm) (i : Fin nrProcs) (newBase size : UInt32)
    (table : HoleTable nrHoles) : Mm :=
  let rmp := mm.mproc i
  let mm := mm.setProc i (rmp.moveTo newBase)
  let mm := mm.lseek (mm.swapFileOff rmp.segD.memPhys)
  let mm := mm.readSeg i (size <<< UInt32.ofNat clickShift)
  let rmp := { rmp.moveTo newBase with
    mpFlags := { rmp.mpFlags with onswap := false, swapin := false } }
  { mm.setProc i rmp with table := table }

/-- The process that was swapped in has its segments in memory. The flags `ONSWAP` and `SWAPIN` are
gone. -/
theorem mproc_swappedIn_self (mm : Mm) (i : Fin nrProcs) (newBase size : UInt32)
    (table : HoleTable nrHoles) : (mm.swappedIn i newBase size table).mproc i =
      { (mm.mproc i).moveTo newBase with
        mpFlags := { (mm.mproc i).mpFlags with onswap := false, swapin := false } } := by
  simp [swappedIn, setProc, lseek, readSeg]

/-- The other processes stay as they are. -/
theorem mproc_swappedIn_of_ne (mm : Mm) {i p : Fin nrProcs} (h : p ≠ i)
    (newBase size : UInt32) (table : HoleTable nrHoles) :
    (mm.swappedIn i newBase size table).mproc p = mm.mproc p := by
  simp [swappedIn, setProc, lseek, readSeg, h]

/-- The image of the process is at its new place, with its old size. -/
theorem image_swappedIn_self (mm : Mm) (i : Fin nrProcs) (newBase size : UInt32)
    (table : HoleTable nrHoles) : (mm.swappedIn i newBase size table).image i =
      range newBase (mm.mproc i).imageSize := by
  rw [image, mproc_swappedIn_self]
  rfl

/-- The images of the other processes stay where they are. -/
theorem image_swappedIn_of_ne (mm : Mm) {i p : Fin nrProcs} (h : p ≠ i)
    (newBase size : UInt32) (table : HoleTable nrHoles) :
    (mm.swappedIn i newBase size table).image p = mm.image p := by
  rw [image, image, mproc_swappedIn_of_ne mm h]

/-- When the branch for a process returns, `free_mem` of its old place has returned, and the state
is the one after the move. -/
theorem swapInProc_ok {i : Fin nrProcs} {newBase size : UInt32}
    (hok : mm.swapInProc i newBase size = .ok mm') :
    ∃ table, mm.table.freeMem (mm.mproc i).segD.memPhys size = .ok table ∧
      mm' = mm.swappedIn i newBase size table := by
  -- The slot of `i` is written twice, before the image is read and after the old place is freed.
  rw [swapInProc] at hok
  obtain ⟨mm₁, hfree, hok⟩ := exists_of_bind hok
  obtain ⟨table, htable, rfl⟩ := freeMem_ok hfree
  refine ⟨table, htable, ?_⟩
  rw [← Except.ok.inj hok]
  simp [swappedIn, setProc, lseek, readSeg, Mproc.moveTo]

/-- One thing that the loop of `swap_in` does: it changes a link of the queue, it finds no
memory for the process `i`, or it moves `i` to the memory that it got. -/
inductive SwapInRound : Mm → Mm → Prop
  | relink {mm : Mm} (pmp p : Option (Fin nrProcs)) : SwapInRound mm (mm.setLink pmp p)
  | wait {mm mm' : Mm} {i : Fin nrProcs}
      (hok : mm.allocMem (mm.mproc i).imageSize = .ok (noMem, mm')) : SwapInRound mm mm'
  | move {mm mm₁ mm' : Mm} {i : Fin nrProcs} {newBase : UInt32}
      (hi : (mm.mproc i).mpFlags.swapin)
      (hok : mm.allocMem (mm.mproc i).imageSize = .ok (newBase, mm₁)) (hne : newBase ≠ noMem)
      (hmove : mm₁.swapInProc i newBase (mm.mproc i).imageSize = .ok mm') : SwapInRound mm mm'

/-- `swap_in` is a run of such rounds. -/
theorem swapInLoop_run {fuel : Nat} {pmp : Option (Fin nrProcs)}
    (hok : swapInLoop fuel mm pmp = .ok mm') : Relation.ReflTransGen SwapInRound mm mm' := by
  induction fuel generalizing mm pmp with
  | zero =>
      rw [swapInLoop] at hok
      split at hok
      · rw [Except.ok.inj hok]
      · cases hok
  | succ fuel ih =>
      rw [swapInLoop] at hok
      split at hok
      · rw [Except.ok.inj hok]
      · rename_i i _
        cases hin : (mm.mproc i).mpFlags.swapin
        · simp only [hin] at hok
          -- The process is not to be swapped in any more, and it leaves the queue.
          exact Relation.ReflTransGen.head (.relink _ _) (ih hok)
        · simp only [hin] at hok
          obtain ⟨⟨newBase, mm₁⟩, halloc, hok⟩ := exists_of_bind hok
          by_cases hne : newBase = noMem
          · subst hne
            -- No memory for the process: it stays in the queue.
            exact Relation.ReflTransGen.head (.wait halloc) (ih hok)
          · rw [if_neg hne] at hok
            obtain ⟨mm₂, hproc, hok⟩ := exists_of_bind hok
            exact Relation.ReflTransGen.head (.move hin halloc hne hproc)
              (Relation.ReflTransGen.head (.relink _ _) (ih hok))

/-- An `alloc_mem` that returns `NO_MEM` keeps the clicks that the memory manager has, but for
a block at address 0. -/
theorem allocMem_noMem {clicks : UInt32} (hT : Territory T) (h : mm.Holds live T)
    (hmoves : mm.Moves mm' live) (hok : mm.allocMem clicks = .ok (noMem, mm')) :
    ∃ T', mm'.Holds live T' ∧ Drops T T' := by
  rcases allocMem_holds hT h hmoves hok with ⟨-, h'⟩ | ⟨T', h', hT'⟩
  · exact ⟨T, h', .refl T⟩
  · by_cases hclicks : clicks = 0
    · refine ⟨T', h', [], by simp, ?_⟩
      intro x
      have hx : x ∉ range noMem clicks := by
        rw [mem_range, hclicks, UInt32.toNat_zero]
        omega
      rw [← hT' x, if_neg hx, cover_nil]
    · refine ⟨T', h', [range noMem clicks], ?_, ?_⟩
      · intro e he
        rw [List.mem_singleton.mp he]
        exact ⟨rfl, Nat.pos_of_ne_zero fun h0 => hclicks (UInt32.toNat_inj.mp h0)⟩
      · intro x
        rw [← hT' x, cover_cons, cover_nil, Nat.add_zero]

/-- A write of a link changes no flags. -/
theorem mpFlags_setLink (pmp q : Option (Fin nrProcs)) (p : Fin nrProcs) :
    ((mm.setLink pmp q).mproc p).mpFlags = (mm.mproc p).mpFlags := by
  cases pmp with
  | none => rfl
  | some i =>
      by_cases h : p = i
      · subst h
        simp [setLink]
      · rw [setLink, mproc_setProc_of_ne h]

/-- A write of a link moves no image. -/
theorem image_setLink (pmp q : Option (Fin nrProcs)) (p : Fin nrProcs) :
    (mm.setLink pmp q).image p = mm.image p := by
  cases pmp with
  | none => rfl
  | some i =>
      by_cases h : p = i
      · subst h
        simp [setLink, image, Mproc.imageSize]
      · rw [setLink, image, image, mproc_setProc_of_ne h]

/-- A write of a link does not touch the hole table. -/
theorem table_setLink (pmp q : Option (Fin nrProcs)) : (mm.setLink pmp q).table = mm.table := by
  cases pmp <;> rfl

/-- One round of `swap_in` keeps the clicks that the memory manager has, but for a block at
address 0. -/
theorem swapInRound_holds (hT : Territory T) (h : mm.Holds live T) (hmov : mm.Movable live)
    (hround : SwapInRound mm mm') :
    mm'.Movable live ∧ ∃ T', mm'.Holds live T' ∧ Drops T T' := by
  cases hround with
  | relink pmp q =>
      refine ⟨fun p hp => hmov p ?_, T, h.congr (table_setLink pmp q)
        (fun p _ => image_setLink pmp q p), .refl T⟩
      rwa [mpFlags_setLink] at hp
  | wait hok =>
      obtain ⟨hmoves, hmov'⟩ := allocMem_movable hmov hok
      exact ⟨hmov', allocMem_noMem hT h hmoves hok⟩
  | @move mm₁ _ i newBase hi hok hne hmove =>
      have hlive := hmov i (Or.inr hi)
      obtain ⟨hmoves, hmov₁⟩ := allocMem_movable hmov hok
      obtain ⟨table, hfree, rfl⟩ := swapInProc_ok hmove
      -- `swap_in` computed the size before it called `alloc_mem`.
      have hsize : (mm.mproc i).imageSize = (mm₁.mproc i).imageSize := by
        obtain ⟨mm₂, hswaps, hcases⟩ := allocLoop_cases hok
        rw [← hswaps.imageSize i]
        rcases hcases with ⟨_, _, _, _, _, rfl⟩ | ⟨_, _, _, rfl⟩ <;> rfl
      rw [hsize] at hok hfree ⊢
      constructor
      · intro p hp
        by_cases hpi : p = i
        · exact hpi ▸ hlive
        · rw [mproc_swappedIn_of_ne _ hpi] at hp
          exact hmov₁ p hp
      · rcases allocMem_holds hT h hmoves hok with ⟨hb, -⟩ | ⟨T₁, ⟨m, hrep, hm, hcover⟩, hT₁⟩
        · exact absurd hb hne
        · -- The block from `alloc_mem` is the new place, and the swap "memory" is freed.
          refine ⟨T, relocate_holds hT hlive hrep hm ?_ hfree
            (image_swappedIn_self mm₁ i _ _ _)
            (fun p _ hpi => image_swappedIn_of_ne mm₁ hpi _ _ _), .refl T⟩
          intro x
          rw [cover_cons, ← hT₁ x, ← hcover x]
          omega

/-- `swap_in` keeps the clicks that the memory manager has, but for a block at address 0. -/
theorem swapIn_holds (hT : Territory T) (h : mm.Holds live T) (hmov : mm.Movable live)
    (hok : mm.swapIn = .ok mm') :
    mm'.Movable live ∧ ∃ T', mm'.Holds live T' ∧ Drops T T' := by
  refine Run.invariant (P := fun a => a.Movable live ∧ ∃ T', a.Holds live T' ∧ Drops T T')
    (swapInLoop_run hok) ⟨hmov, T, h, .refl T⟩ ?_
  rintro a b ⟨hmov₁, T₁, h₁, hdrops⟩ hround
  obtain ⟨hmov', T', h', hdrops'⟩ := swapInRound_holds (hT.mono hdrops.le) h₁ hmov₁ hround
  exact ⟨hmov', T', h', hdrops.trans hdrops'⟩

end Mm

end

end Soi.Pamiec
