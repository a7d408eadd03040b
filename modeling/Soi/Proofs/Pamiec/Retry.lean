import Mathlib.Data.Fintype.Card
import Soi.Proofs.Pamiec.HoleList
import Soi.Proofs.Pamiec.SwapScan

/-!
# `Soi.Proofs.Pamiec.Retry`: the retry loop of `alloc_mem`

Each round of the loop that does not end it swaps out a process, and that one is no candidate
afterwards. `Going` is what the loop keeps: what the holes and the candidates have together, an
entry of the table for each candidate, and `outswap` in the slots of the users. With it neither
`swap_out` nor a round can fail (`Going.swapOut_cases`), and the candidates count the rounds
(`allocLoop_going`).

`alloc_retries` is the result. No click of the memory manager is click 0, so a block is not taken
for `NO_MEM`, and a failure means that nothing was left to try.
-/

set_option autoImplicit false

namespace Soi.Pamiec

open Soi.Lib

/-- A candidate is not on swap. -/
theorem MpFlags.onswap_of_swappable {f : MpFlags} (h : f.swappable) : f.onswap = false := by
  simp only [MpFlags.swappable, MpFlags.avoided, Bool.and_eq_true, Bool.not_eq_true',
    Bool.or_eq_false_iff] at h
  exact h.2.2

namespace Mm

section
variable [MmConfig] {mm mm' : Mm} {live : Finset (Fin nrProcs)} {T : Nat → Nat}
  {clicks : UInt32}

/-- The user processes that `swap_out` may move. -/
def outs (mm : Mm) : Finset (Fin nrProcs) :=
  Finset.univ.filter fun p => lowUser ≤ p.val ∧ (mm.mproc p).mpFlags.swappable

/-- The user processes that are not on swap. -/
def residents (mm : Mm) : Finset (Fin nrProcs) :=
  Finset.univ.filter fun p => lowUser ≤ p.val ∧ (mm.mproc p).mpFlags.onswap = false

/-- A candidate has the slot of a user, and flags with which it may be swapped out. -/
theorem mem_outs {p : Fin nrProcs} :
    p ∈ mm.outs ↔ lowUser ≤ p.val ∧ (mm.mproc p).mpFlags.swappable := by
  simp [outs]

/-- A process in memory has the slot of a user, and it is not on swap. -/
theorem mem_residents {p : Fin nrProcs} :
    p ∈ mm.residents ↔ lowUser ≤ p.val ∧ (mm.mproc p).mpFlags.onswap = false := by
  simp [residents]

/-- A candidate is not on swap, so there are at most as many candidates as processes in memory. -/
theorem outs_subset_residents (mm : Mm) : mm.outs ⊆ mm.residents := by
  intro p hp
  obtain ⟨huser, hcand⟩ := mem_outs.mp hp
  exact mem_residents.mpr ⟨huser, MpFlags.onswap_of_swappable hcand⟩

/-- The process `i` that was swapped out is no candidate any more, and the others are candidates as
before. -/
theorem outs_swappedOut (mm : Mm) (i : Fin nrProcs) (newBase : UInt32)
    (table : HoleTable nrHoles) : (mm.swappedOut i newBase table).outs = mm.outs.erase i := by
  ext p
  rw [Finset.mem_erase, mem_outs, mem_outs]
  by_cases hpi : p = i
  · subst hpi
    rw [mproc_swappedOut_self]
    simp [MpFlags.swappable, MpFlags.avoided]
  · rw [mproc_swappedOut_of_ne mm hpi]
    simp [hpi]

/-! ### One slot -/

/-- `swap_out` at one slot, when the table has an entry left for a candidate. Either it does not
help, or the image moves. -/
theorem swapOutProc_total {m : List Extent} {i : Fin nrProcs} (hT : Territory T)
    (hrep : mm.table.Represents m) (hm : Coalesced m)
    (hcover : ∀ x, cover m x + mm.held live x = T x)
    (hlive : (mm.mproc i).mpFlags.swappable → i ∈ live ∧ m.length < nrHoles) :
    (mm.swapOutProc i = .ok none ∧ ((mm.mproc i).mpFlags.swappable = false ∨
        ∀ e ∈ m, mm.swapBase.toNat ≤ e.base → e.len < (mm.mproc i).imageSize.toNat)) ∨
      ∃ newBase table m', (mm.mproc i).mpFlags.swappable ∧
        mm.swapOutProc i = .ok (some (mm.swappedOut i newBase table)) ∧
        table.Represents m' ∧ m'.length ≤ m.length + 1 := by
  obtain ⟨hs, fs, hslots, rfl⟩ := hrep
  have hle := cover_le_of_holds hcover
  rcases swapOutProc_cases hslots hm (hT.holes_stop_le hm hle) i with
    ⟨hnone, hwhy⟩ | ⟨hp, table₁, m₁, hcand, -, -, -, hrep₁, hm₁, hlen₁, hcover₁, hrun⟩
  · refine Or.inl ⟨hnone, hwhy.imp_right fun hsmall => ?_⟩
    intro e he hbase
    obtain ⟨a, ha, rfl⟩ := List.mem_map.mp he
    exact UInt32.lt_iff_toNat_lt.mp (hsmall a ha (UInt32.le_iff_toNat_le.mpr hbase))
  · obtain ⟨hi, hroom⟩ := hlive hcand
    -- The old place still belongs to `i`, so it can be freed.
    have hle₁ : ∀ x, cover (range (mm.mproc i).segD.memPhys (mm.mproc i).imageSize :: m₁) x
        ≤ T x := by
      intro x
      have hheld := held_erase mm hi x
      have hsum := hcover x
      have hnew := hcover₁ x
      rw [cover_cons] at hnew ⊢
      rw [image] at hheld
      omega
    rcases HoleTable.freeMem_cases hT hrep₁ hm₁ hle₁ with
      ⟨table, m', hfree, hrep', -, hlen', -⟩ | ⟨hfull, -⟩
    · refine Or.inr ⟨(mm.table.hole hp).hBase, table, m', hcand, ?_, hrep', ?_⟩
      · rw [hrun, hfree]
        rfl
      · rw [HoleTable.extents, List.length_map]
        omega
    · rw [HoleTable.extents, List.length_map] at hroom
      omega

/-! ### `swap_out` -/

/-- What the retry loop keeps. -/
structure Going (live : Finset (Fin nrProcs)) (T : Nat → Nat) (mm : Mm) : Prop where
  holds : mm.Holds live T
  /-- The table has an unused entry for each candidate. -/
  entries : ∀ m, mm.table.Represents m → m.length + mm.outs.card ≤ nrHoles
  outs : mm.outs ⊆ live
  outswap : lowUser ≤ mm.outswap.val

/-- Nothing is left to swap out: each user process is no candidate, or bigger than all swap
holes. -/
def AllStay (mm : Mm) (m : List Extent) : Prop :=
  ∀ p : Fin nrProcs, lowUser ≤ p.val → (mm.mproc p).mpFlags.blocked = false ∨
    (mm.mproc p).mpFlags.avoided = true ∨
    ∀ e ∈ m, mm.swapBase.toNat ≤ e.base → e.len < (mm.mproc p).imageSize.toNat

/-- One more process is swapped out. -/
theorem Going.step (hT : Territory T) (h : mm.Going live T) {i : Fin nrProcs} {newBase : UInt32}
    {table : HoleTable nrHoles} {m m' : List Extent} (hi : lowUser ≤ i.val)
    (hcand : (mm.mproc i).mpFlags.swappable)
    (hok : mm.swapOutProc i = .ok (some (mm.swappedOut i newBase table)))
    (hrep : mm.table.Represents m) (hrep' : table.Represents m') (hlen : m'.length ≤ m.length + 1) :
    (mm.swappedOut i newBase table).Going live T := by
  have hout : i ∈ mm.outs := mem_outs.mpr ⟨hi, hcand⟩
  refine ⟨swapOutProc_holds hT h.holds (h.outs hout) hok, ?_, ?_, hi⟩
  · intro m'' hrep''
    have hsame : m'' = m' := hrep''.unique hrep'
    have hcard := Finset.card_erase_add_one hout
    have := h.entries m hrep
    rw [hsame, outs_swappedOut]
    omega
  · rw [outs_swappedOut]
    exact (Finset.erase_subset _ _).trans h.outs

/-- A call of `swap_out` returns. It moves a user process, or there is nothing to move. -/
theorem Going.swapOut_cases (hT : Territory T) (h : mm.Going live T) :
    (mm.swapOut = .ok none ∧ ∀ m, mm.table.Represents m → mm.AllStay m) ∨
      ∃ i newBase table, i ∈ mm.outs ∧
        mm.swapOut = .ok (some (mm.swappedOut i newBase table)) ∧
        (mm.swappedOut i newBase table).Going live T := by
  obtain ⟨m, hrep, hm, hcover⟩ := h.holds
  have hslot : ∀ i ∈ around nextProc mm.outswap userSlots, _ := fun i hi =>
    swapOutProc_total (i := i) hT hrep hm hcover fun hcand => by
      have hout := mem_outs.mpr ⟨(mem_around_nextProc h.outswap).mp hi, hcand⟩
      have hpos := Finset.card_pos.mpr ⟨i, hout⟩
      have := h.entries m hrep
      exact ⟨h.outs hout, by omega⟩
  have htotal : ∃ r, mm.swapOut = .ok r := by
    rw [swapOut_eq h.outswap]
    refine tryEach_total fun i hi => ?_
    rcases hslot i hi with ⟨hnone, -⟩ | ⟨newBase, table, m', -, hok, -⟩
    · exact ⟨none, hnone⟩
    · exact ⟨some (mm.swappedOut i newBase table), hok⟩
  obtain ⟨r, hr⟩ := htotal
  rw [hr]
  rw [swapOut_eq h.outswap] at hr
  cases r with
  | none =>
      refine Or.inl ⟨rfl, ?_⟩
      intro m₁ hrep₁ p hp
      obtain rfl := hrep₁.unique hrep
      have hmem := (mem_around_nextProc h.outswap).mpr hp
      rcases hslot p hmem with ⟨-, hwhy⟩ | ⟨_, _, _, -, hok, -⟩
      · rcases hwhy with hno | hsmall
        · cases hblocked : (mm.mproc p).mpFlags.blocked with
          | false => exact Or.inl rfl
          | true =>
              rw [MpFlags.swappable, hblocked] at hno
              exact Or.inr (Or.inl (by simpa using hno))
        · exact Or.inr (Or.inr hsmall)
      · rw [tryEach_eq_none.mp hr p hmem] at hok
        cases hok
  | some mm' =>
      obtain ⟨i, hi, hproc⟩ := exists_of_tryEach hr
      have huser := (mem_around_nextProc h.outswap).mp hi
      rcases hslot i hi with ⟨hnone, -⟩ | ⟨newBase, table, m', hcand, hok, hrep', hlen⟩
      · rw [hnone] at hproc
        cases hproc
      · have hsame : mm.swappedOut i newBase table = mm' :=
          Option.some.inj (Except.ok.inj (hok.symm.trans hproc))
        refine Or.inr ⟨i, newBase, table, mem_outs.mpr ⟨huser, hcand⟩, by rw [hsame],
          h.step hT huser hcand hok hrep hrep' hlen⟩

/-! ### The loop -/

/-- What `alloc_mem` knows when it returns `NO_MEM`: all holes of memory are too small, and nobody
can be swapped out. -/
structure Exhausted (mm : Mm) (clicks : UInt32) (m : List Extent) : Prop where
  holes : ∀ e ∈ m, e.base < mm.swapBase.toNat → e.len < clicks.toNat
  processes : mm.AllStay m

/-- The loop ends after one round more than there are candidates. -/
theorem allocLoop_going (hT : Territory T) (hzero : T 0 = 0) (h : mm.Going live T)
    (clicks : UInt32) {rounds : Nat} (hrounds : mm.outs.card < rounds) :
    ∃ b mm', allocLoop rounds mm clicks = .ok (b, mm') ∧
      (b = noMem → ∃ m, mm'.table.Represents m ∧ mm'.Exhausted clicks m) := by
  induction rounds generalizing mm with
  | zero => omega
  | succ rounds ih =>
      obtain ⟨m, ⟨hs, fs, hslots, rfl⟩, hm, hcover⟩ := h.holds
      have hle := cover_le_of_holds hcover
      rcases fit_spec clicks hslots hm with
        ⟨prevPtr, l₁, i, l₂, rfl, hfit, hprev, hlen, -⟩ | ⟨hfit, hsmall⟩
      · have hmem : mm.table.extent i ∈ mm.table.extents (l₁ ++ i :: l₂) :=
          List.mem_map_of_mem (by simp)
        obtain ⟨table, m', hbite, -⟩ := HoleTable.bite_cases prevPtr hslots hm hprev hlen
          (hT.holes_stop_le hm hle _ hmem)
        refine ⟨(mm.table.hole i).hBase, { mm with table := table }, ?_, ?_⟩
        · rw [allocLoop, hfit]
          simp only [bind, Except.bind, hbite]
          rfl
        · intro hno
          -- The hole would contain click 0.
          have hbase : (mm.table.extent i).base = 0 := congrArg UInt32.toNat hno
          have hx : 0 ∈ mm.table.extent i := by
            have := hm.pos _ hmem
            rw [Extent.mem_def]
            omega
          have := cover_pos_of_mem hmem hx
          have := hle 0
          omega
      · rcases h.swapOut_cases hT with ⟨hswap, hstay⟩ | ⟨i, newBase, table, hi, hswap, hgoing⟩
        · have hrep : mm.table.Represents (mm.table.extents hs) := ⟨hs, fs, hslots, rfl⟩
          refine ⟨noMem, mm, ?_, fun _ => ⟨_, hrep, ?_, hstay _ hrep⟩⟩
          · rw [allocLoop, hfit]
            simp only [bind, Except.bind, hswap]
            rfl
          · intro e he hbase
            obtain ⟨a, ha, rfl⟩ := List.mem_map.mp he
            exact UInt32.lt_iff_toNat_lt.mp (hsmall a ha (UInt32.lt_iff_toNat_lt.mpr hbase))
        · -- The process `i` is no candidate now, so there is one less to swap out.
          have hcard := Finset.card_erase_add_one hi
          obtain ⟨b, mm', hok, hno⟩ := ih hgoing (by rw [outs_swappedOut]; omega)
          refine ⟨b, mm', ?_, hno⟩
          rw [allocLoop, hfit]
          simp only [bind, Except.bind, hswap]
          exact hok

/-- More rounds than needed make no difference. -/
theorem allocLoop_mono {rounds rounds' : Nat} {r : UInt32 × Mm}
    (hok : allocLoop rounds mm clicks = .ok r) (hle : rounds ≤ rounds') :
    allocLoop rounds' mm clicks = .ok r := by
  induction rounds generalizing mm rounds' with
  | zero => cases hok
  | succ rounds ih =>
      obtain ⟨n, rfl⟩ : ∃ n, rounds' = n + 1 := ⟨rounds' - 1, by omega⟩
      rw [allocLoop] at hok ⊢
      obtain ⟨fit, hfit, hok⟩ := exists_of_bind hok
      rw [hfit]
      cases fit with
      | some fit => exact hok
      | none =>
          obtain ⟨swap, hswap, hok⟩ := exists_of_bind hok
          show (mm.swapOut >>= _) = _
          rw [hswap]
          cases swap with
          | none => exact hok
          | some mm₁ => exact ih hok (by omega)

/-- A hole table that satisfies its representation invariant, and images of the candidates that are
disjoint from each other and from the holes. No click of these is click 0, and the table has an
unused entry for each candidate. -/
structure Settled (mm : Mm) (hs fs : List (Fin nrHoles)) : Prop where
  valid : mm.table.Valid mm.swapBase hs fs
  base_ne : ∀ i ∈ hs, (mm.table.hole i).hBase ≠ noMem
  apart : mm.Apart mm.outs (mm.table.extents hs)
  within : ∀ p ∈ mm.outs, ∀ x ∈ mm.image p, 0 < x ∧ x < 2 ^ 32
  entries : mm.outs.card ≤ fs.length
  outswap : lowUser ≤ mm.outswap.val

variable {hs fs : List (Fin nrHoles)}

/-- No hole and no image of a candidate has click 0. -/
theorem Settled.zero (h : mm.Settled hs fs) :
    cover (mm.table.extents hs) 0 + mm.held mm.outs 0 = 0 := by
  have hcover : cover (mm.table.extents hs) 0 = 0 := by
    by_contra hne
    obtain ⟨e, he, hx⟩ := cover_pos.mp (Nat.pos_of_ne_zero hne)
    obtain ⟨a, ha, rfl⟩ := List.mem_map.mp he
    refine h.base_ne a ha (UInt32.toNat_inj.mp ?_)
    rw [Extent.mem_def] at hx
    exact Nat.eq_zero_of_le_zero hx.1
  have hheld : mm.held mm.outs 0 = 0 := by
    by_contra hne
    obtain ⟨p, hp, hx⟩ := exists_of_held_ne_zero hne
    exact absurd (h.within p hp 0 hx).1 (Nat.lt_irrefl 0)
  omega

/-- The holes and the images of the candidates are a territory: no two of them have a click in
common, and click 0 is free. -/
theorem Settled.territory (h : mm.Settled hs fs) :
    Territory fun x => cover (mm.table.extents hs) x + mm.held mm.outs x where
  le_one := h.apart.le_one h.valid.coalesced
  lt x hx := by
    by_cases hheld : mm.held mm.outs x = 0
    · obtain ⟨e, he, hxe⟩ := cover_pos.mp (show 0 < cover (mm.table.extents hs) x by omega)
      have := h.valid.stop_le e he
      rw [Extent.mem_def] at hxe
      rw [Extent.stop] at this
      omega
    · obtain ⟨p, hp, hxp⟩ := exists_of_held_ne_zero hheld
      exact (h.within p hp x hxp).2
  room := ⟨0, Nat.two_pow_pos 32, h.zero⟩

/-- A settled state has what the loop keeps. There is an unused entry for each candidate. -/
theorem Settled.going (h : mm.Settled hs fs) :
    mm.Going mm.outs fun x => cover (mm.table.extents hs) x + mm.held mm.outs x := by
  refine ⟨⟨_, h.valid.represents, h.valid.coalesced, fun x => rfl⟩, ?_, Finset.Subset.refl _,
    h.outswap⟩
  intro m hrep
  obtain rfl := hrep.unique h.valid.represents
  have hlen := h.valid.perm.length_eq
  have := h.entries
  rw [List.length_append, List.length_finRange] at hlen
  rw [HoleTable.extents, List.length_map]
  omega

/-- There are at most as many candidates as slots, which is why `alloc_mem` has rounds enough. -/
theorem card_outs_le (mm : Mm) : mm.outs.card ≤ nrProcs := by
  have := Finset.card_le_univ mm.outs
  rwa [Fintype.card_fin] at this

/-- The search of one `swap_out`. -/
structure Scans (mm : Mm) : Prop where
  /-- It looks at each slot of a user process once, until it has swapped out a process. -/
  slots : ∃ slots : List (Fin nrProcs), slots.Nodup ∧ (∀ i, i ∈ slots ↔ lowUser ≤ i.val) ∧
    mm.swapOut = tryEach mm.swapOutProc slots
  /-- It ends, and `outswap` is the slot of a user process again. -/
  returns : ∃ r, mm.swapOut = .ok r ∧ ∀ mm', r = some mm' → lowUser ≤ mm'.outswap.val

/-- Each search is one round over the slots of the users, and it leaves `outswap` among them. -/
theorem Going.scans (hT : Territory T) (h : mm.Going live T) : mm.Scans := by
  refine ⟨⟨_, (onCycle_nextProc h.outswap).nodup_around, fun i => mem_around_nextProc h.outswap,
    swapOut_eq h.outswap⟩, ?_⟩
  rcases h.swapOut_cases hT with ⟨hswap, -⟩ | ⟨i, newBase, table, -, hswap, hgoing⟩
  · exact ⟨none, hswap, fun mm' hmm' => by cases hmm'⟩
  · exact ⟨_, hswap, fun mm' hmm' => Option.some.inj hmm' ▸ hgoing.outswap⟩

/-- What the loop needs, it still has after any number of processes were swapped out. -/
theorem Going.swapsOut (hT : Territory T) (h : mm.Going live T) (hswaps : SwapsOut mm mm') :
    mm'.Going live T := by
  refine Run.invariant (P := fun a => a.Going live T) hswaps h ?_
  intro a b ha hab
  rcases ha.swapOut_cases hT with ⟨hswap, -⟩ | ⟨i, newBase, table, -, hswap, hgoing⟩
  · rw [hswap] at hab
    cases hab
  · rw [hswap] at hab
    exact Option.some.inj (Except.ok.inj hab) ▸ hgoing

end

end Mm

/-- A request in a settled state, in either placement mode. Each `swap_out` looks at the slots of
the user processes once. The loop ends after one round more than there are candidates, which are at
most as many as the user processes that are not on swap. When it fails, all holes of memory are too
small, and each user process is not blocked, or to be avoided, or bigger than all swap holes. -/
theorem alloc_retries [MmConfig] (mm : Mm) (hs fs : List (Fin nrHoles)) (h : mm.Settled hs fs)
    (clicks : UInt32) :
    (∀ a, Mm.SwapsOut mm a → a.Scans) ∧ mm.outs ⊆ mm.residents ∧
      ∃ b mm', Mm.allocLoop (mm.outs.card + 1) mm clicks = .ok (b, mm') ∧
        Mm.allocLoop (mm.residents.card + 1) mm clicks = .ok (b, mm') ∧
        mm.allocMem clicks = .ok (b, mm') ∧
        (b = noMem → ∃ m, mm'.table.Represents m ∧ mm'.Exhausted clicks m) := by
  have hT := h.territory
  have hsub := mm.outs_subset_residents
  refine ⟨fun a ha => (h.going.swapsOut hT ha).scans hT, hsub, ?_⟩
  obtain ⟨b, mm', hok, hno⟩ := Mm.allocLoop_going hT h.zero h.going clicks (Nat.lt_succ_self _)
  have hresidents := Finset.card_le_card hsub
  have hrounds := mm.card_outs_le
  exact ⟨b, mm', hok, Mm.allocLoop_mono hok (by omega), Mm.allocLoop_mono hok (by omega), hno⟩

/-! ### One blocked process -/

section
attribute [local instance] tinyConfig

/-- All memory is allocated, and eight clicks of swap are free. -/
def tinySwapTable : HoleTable nrHoles where
  hole hp :=
    if hp.val = 0 then ⟨none, 23, 8⟩
    else ⟨if h : hp.val + 1 < nrHoles then some ⟨hp.val + 1, h⟩ else none, 0, 0⟩
  holeHead := some ⟨0, by decide⟩
  freeSlots := some ⟨1, by decide⟩

/-- The table has one hole, the swap area. -/
theorem tinySwapTable_valid : tinySwapTable.Valid 23 [⟨0, by decide⟩]
    [⟨1, by decide⟩, ⟨2, by decide⟩, ⟨3, by decide⟩] :=
  ⟨⟨rfl, rfl⟩, ⟨rfl, rfl, rfl, rfl⟩, by decide, by decide, by decide, by decide, by decide⟩

/-- The process of this slot waits in `pause()`, with an image of two clicks from `base` on. -/
def tinyPaused (slot : Fin nrProcs) (base : UInt32) : Mm :=
  { tinyMm with
      table := tinySwapTable
      swapFd := 3
      swapBase := 23
      mproc := fun p =>
        if p = slot then
          ⟨⟨0, base, 1⟩, ⟨1, base + 1, 1⟩, { MpFlags.none with paused := true }, none⟩
        else
          tinyMm.mproc p }

/-- Only this process has an image. -/
theorem mem_image_tinyPaused {slot p : Fin nrProcs} {base : UInt32} {x : Nat}
    (hx : x ∈ (tinyPaused slot base).image p) : p = slot ∧ x ∈ range base 2 := by
  by_cases hp : p = slot
  · subst hp
    have himage : (tinyPaused p base).image p = range base 2 := by
      simp [Mm.image, tinyPaused, Mproc.imageSize]
    exact ⟨rfl, himage ▸ hx⟩
  · have himage : (tinyPaused slot base).image p = range 0 0 := by
      simp [Mm.image, tinyPaused, hp, Mproc.imageSize, tinyMm]
    rw [himage, mem_range, UInt32.toNat_zero] at hx
    omega

/-- It is in memory, and so apart from the swap hole. -/
theorem tinyPaused_apart (slot : Fin nrProcs) {base : UInt32} (hbase : base.toNat + 2 ≤ 23)
    (live : Finset (Fin nrProcs)) :
    (tinyPaused slot base).Apart live (tinySwapTable.extents [⟨0, by decide⟩]) := by
  constructor
  · intro p _ q _ hne x hxp hxq
    exact hne ((mem_image_tinyPaused hxp).1.trans (mem_image_tinyPaused hxq).1.symm)
  · intro p _ x hx e he hxe
    have hx := (mem_image_tinyPaused hx).2
    have he : e = ⟨23, 8⟩ := List.mem_singleton.mp he
    rw [mem_range] at hx
    subst he
    have hxe : 23 ≤ x ∧ x < 23 + 8 := hxe
    have htwo : (2 : UInt32).toNat = 2 := rfl
    omega

/-- The process 1 at click 4. -/
theorem tinyPaused_settled : (tinyPaused ⟨1, by decide⟩ 4).Settled [⟨0, by decide⟩]
    [⟨1, by decide⟩, ⟨2, by decide⟩, ⟨3, by decide⟩] := by
  refine ⟨tinySwapTable_valid, by decide, tinyPaused_apart _ (by decide) _, ?_, by decide,
    by decide⟩
  intro p _ x hx
  have hx := (mem_image_tinyPaused hx).2
  rw [mem_range] at hx
  have hfour : (4 : UInt32).toNat = 4 := rfl
  have htwo : (2 : UInt32).toNat = 2 := rfl
  omega

/-- One candidate, so two rounds: the first one swaps it out, and the second one finds its memory.
-/
theorem alloc_retries_tiny : (tinyPaused ⟨1, by decide⟩ 4).outs.card = 1 ∧
    ∃ mm', Mm.allocLoop 2 (tinyPaused ⟨1, by decide⟩ 4) 1 = .ok (4, mm') ∧
      (tinyPaused ⟨1, by decide⟩ 4).allocMem 1 = .ok (4, mm') := by
  have hcard : (tinyPaused ⟨1, by decide⟩ 4).outs.card = 1 := by decide
  obtain ⟨-, -, b, mm', hloop, -, hok, -⟩ := alloc_retries _ _ _ tinyPaused_settled 1
  rw [hcard] at hloop
  have hbase : (Mm.allocLoop 2 (tinyPaused ⟨1, by decide⟩ 4) 1).map Prod.fst = .ok 4 := by decide
  rw [hloop] at hbase
  obtain rfl : b = 4 := Except.ok.inj hbase
  exact ⟨hcard, mm', hloop, hok⟩

/-- What is left to try after a failure, for all holes and all slots of the table. -/
def NothingLeft (mm : Mm) (hs fs : List (Fin nrHoles)) (clicks : UInt32) : Prop :=
  mm.table.Valid mm.swapBase hs fs → (∀ i ∈ hs, (mm.table.hole i).hBase ≠ noMem) →
    mm.Apart Finset.univ (mm.table.extents hs) → nrProcs ≤ fs.length →
    lowUser ≤ mm.outswap.val → ∀ mm', mm.allocMem clicks = .ok (noMem, mm') →
    ∀ m, mm'.table.Represents m →
      (∀ e ∈ m, e.base < mm'.swapBase.toNat → e.len < clicks.toNat) ∧
        ∀ p, (mm'.mproc p).mpFlags.blocked = false ∨ (mm'.mproc p).mpFlags.avoided = true ∨
          ∀ e ∈ m, mm'.swapBase.toNat ≤ e.base → e.len < (mm'.mproc p).imageSize.toNat

/-- The state after the request of one click. -/
def tinyAfter (mm : Mm) : Mm :=
  match mm.allocMem 1 with
  | .ok r => r.2
  | .error _ => mm

/-- The process 1 at click 0 is swapped out, and the block at click 0 is taken for `NO_MEM` while
there is one more click behind it. The process 0, which is none of the users, is not swapped out at
all. -/
theorem not_nothingLeft :
    ¬ (∀ hs fs, NothingLeft (tinyPaused ⟨1, by decide⟩ 0) hs fs 1) ∧
      ¬ ∀ hs fs, NothingLeft (tinyPaused ⟨0, by decide⟩ 4) hs fs 1 := by
  constructor
  · intro hleft
    have hslots : (tinyAfter (tinyPaused ⟨1, by decide⟩ 0)).table.Slots
        [⟨1, by decide⟩, ⟨0, by decide⟩] [⟨2, by decide⟩, ⟨3, by decide⟩] :=
      ⟨⟨rfl, rfl, rfl⟩, ⟨rfl, rfl, rfl⟩, by decide⟩
    have hrep : (tinyAfter (tinyPaused ⟨1, by decide⟩ 0)).table.Represents [⟨1, 1⟩, ⟨25, 6⟩] :=
      ⟨_, _, hslots, rfl⟩
    have hsmall := (hleft _ _ tinySwapTable_valid (by decide) (tinyPaused_apart _ (by decide) _)
      (by decide) (by decide) _ rfl _ hrep).1 ⟨1, 1⟩ (by decide) (by decide)
    exact absurd hsmall (by decide)
  · intro hleft
    have hrep : (tinyPaused ⟨0, by decide⟩ 4).table.Represents [⟨23, 8⟩] :=
      tinySwapTable_valid.represents
    rcases (hleft _ _ tinySwapTable_valid (by decide) (tinyPaused_apart _ (by decide) _)
      (by decide) (by decide) (tinyPaused ⟨0, by decide⟩ 4) rfl _ hrep).2 ⟨0, by decide⟩ with
      hblocked | havoided | hbig
    · exact absurd hblocked (by decide)
    · exact absurd havoided (by decide)
    · exact absurd (hbig ⟨23, 8⟩ (by decide) (by decide)) (by decide)

end

end Soi.Pamiec
