import Mathlib.Algebra.BigOperators.Group.Finset.Piecewise
import Soi.Lib.Run
import Soi.Pamiec.System
import Soi.Proofs.Pamiec.Placement

/-!
# `Soi.Proofs.Pamiec.Territory`: the clicks that the memory manager has

A `Territory` is a set of clicks, as a function to 0 and 1, that leaves at least one click of
the 2^32 out. `mm.Holds live T` states that the hole list is coalesced, and that the holes
together with the images of the live processes cover the click `x` exactly `T x` times.

* `HoleTable.freeMem_cases`: `free_mem` adds the block to the holes, or it panics because the
  table is full;
* `HoleTable.bite_cases`: carving a block out of a hole takes it off the holes;
* `held_move`, `held_erase`, `held_insert`: a change of one image;
* `Mm.freeMem_holds`: `free_mem` adds the block to `T`.

`Drops T T'` allows for the one block that can get lost: `alloc_mem` can carve a block out at
address 0, and its caller takes the address for `NO_MEM`.
-/

set_option autoImplicit false

namespace Soi.Pamiec

open Soi.Lib

/-- A set of clicks that does not cover anything twice, and not all clicks. -/
structure Territory (T : Nat → Nat) : Prop where
  le_one : ∀ x, T x ≤ 1
  lt : ∀ x, T x ≠ 0 → x < 2 ^ 32
  room : ∃ x < 2 ^ 32, T x = 0

/-- A part of a territory. -/
theorem Territory.mono {T T' : Nat → Nat} (h : Territory T) (hle : ∀ x, T' x ≤ T x) :
    Territory T' where
  le_one x := (hle x).trans (h.le_one x)
  lt x hx := h.lt x fun h0 => hx (Nat.eq_zero_of_le_zero (h0 ▸ hle x))
  room := by
    obtain ⟨x, hx, h0⟩ := h.room
    exact ⟨x, hx, Nat.eq_zero_of_le_zero (h0 ▸ hle x)⟩

/-- A range inside a territory ends below 2^32. -/
theorem Territory.stop_le {T : Nat → Nat} (h : Territory T) {e : Extent} (hpos : 0 < e.len)
    (hle : ∀ x ∈ e, 0 < T x) : e.stop ≤ 2 ^ 32 := by
  have hlast : e.stop - 1 ∈ e := by
    simp only [Extent.mem_def, Extent.stop]
    omega
  have := h.lt _ (hle _ hlast).ne'
  omega

/-- Holes inside a territory end below 2^32. -/
theorem Territory.holes_stop_le {T : Nat → Nat} {m : List Extent} (hT : Territory T)
    (hm : Coalesced m) (hle : ∀ x, cover m x ≤ T x) : ∀ e ∈ m, e.stop ≤ 2 ^ 32 := fun e he =>
  hT.stop_le (hm.pos e he) fun x hx => (cover_pos_of_mem he hx).trans_le (hle x)

/-- A coalesced hole list leaves a click of the 2^32 out: one extent of all of them would have a
length that no entry of the table can hold. -/
theorem HoleTable.exists_uncovered {n : Nat} {t : HoleTable n} {hs : List (Fin n)}
    (hm : Coalesced (t.extents hs)) : ∃ x < 2 ^ 32, cover (t.extents hs) x = 0 := by
  refine hm.exists_cover_eq_zero (Nat.two_pow_pos 32) ?_
  intro e he
  obtain ⟨a, -, rfl⟩ := List.mem_map.mp he
  exact (t.hole a).hLen.toNat_lt

/-- What is missing from `T` in `T'` are blocks that start at address 0: `alloc_mem` carved them
out and returned `NO_MEM`, so that nobody has them. -/
def Drops (T T' : Nat → Nat) : Prop :=
  ∃ lost : List Extent, (∀ e ∈ lost, e.base = 0 ∧ 0 < e.len) ∧ ∀ x, T' x + cover lost x = T x

/-- Nothing is lost. -/
theorem Drops.refl (T : Nat → Nat) : Drops T T := ⟨[], by simp, fun _ => rfl⟩

/-- What is lost in two steps. -/
theorem Drops.trans {T₁ T₂ T₃ : Nat → Nat} (h : Drops T₁ T₂) (h' : Drops T₂ T₃) :
    Drops T₁ T₃ := by
  obtain ⟨l, hl, hcover⟩ := h
  obtain ⟨l', hl', hcover'⟩ := h'
  refine ⟨l ++ l', ?_, ?_⟩
  · intro e he
    exact (List.mem_append.mp he).elim (hl e) (hl' e)
  · intro x
    rw [cover_append, ← hcover x, ← hcover' x]
    omega

/-- Clicks can only get lost. -/
theorem Drops.le {T T' : Nat → Nat} (h : Drops T T') (x : Nat) : T' x ≤ T x := by
  obtain ⟨l, -, hcover⟩ := h
  rw [← hcover x]
  omega

/-- Nothing is lost where there is no click 0. -/
theorem Drops.eq_of_zero {T T' : Nat → Nat} (h : Drops T T') (h0 : T 0 = 0) : T' = T := by
  obtain ⟨l, hl, hcover⟩ := h
  cases l with
  | nil => exact funext hcover
  | cons e l =>
      -- A block that got lost starts at click 0, which `T` does not count.
      obtain ⟨hbase, hlen⟩ := hl e List.mem_cons_self
      have hx : 0 < cover (e :: l) 0 :=
        cover_pos_of_mem List.mem_cons_self (by simp only [Extent.mem_def]; omega)
      have := hcover 0
      omega

/-- A block disjoint from the holes can be freed. -/
theorem Territory.freeable {T : Nat → Nat} (h : Territory T) {m : List Extent}
    (hm : Coalesced m) {base clicks : UInt32} (hle : ∀ x, cover (range base clicks :: m) x ≤ T x) :
    HoleTable.Freeable (range base clicks) m where
  disjoint x hx := by
    have h₁ := hle x
    have h₂ := h.le_one x
    rw [cover_cons, if_pos hx] at h₁
    omega
  stop_le f hf := by
    -- The ranges lie inside the territory, which ends below 2^32. Only an empty block can be
    -- anywhere.
    have hin : ∀ x ∈ f, 0 < T x := fun x hx => (cover_pos_of_mem hf hx).trans_le (hle x)
    rcases List.mem_cons.mp hf with rfl | hf
    · by_cases hpos : 0 < (range base clicks).len
      · exact h.stop_le hpos hin
      · have := base.toNat_lt
        simp only [Extent.stop, range] at hpos ⊢
        omega
    · exact h.stop_le (hm.pos f hf) hin
  room := by
    obtain ⟨x, hx, h0⟩ := h.room
    exact ⟨x, hx, Nat.eq_zero_of_le_zero (h0 ▸ hle x)⟩

/-- The clicks of a range, between its two ends. -/
theorem mem_range {base clicks : UInt32} {x : Nat} :
    x ∈ range base clicks ↔ base.toNat ≤ x ∧ x < base.toNat + clicks.toNat := Iff.rfl

/-- `free_mem` adds the block to the holes, or it panics because the table is full. -/
theorem HoleTable.freeMem_cases {n : Nat} {t : HoleTable n} {m : List Extent}
    {T : Nat → Nat} {base clicks : UInt32} (hT : Territory T) (h : t.Represents m)
    (hm : Coalesced m) (hle : ∀ x, cover (range base clicks :: m) x ≤ T x) :
    (∃ t' m', t.freeMem base clicks = .ok t' ∧ t'.Represents m' ∧ Coalesced m' ∧
        m'.length ≤ m.length + 1 ∧ ∀ x, cover m' x = cover (range base clicks :: m) x) ∨
      (m.length = n ∧ t.freeMem base clicks = .error (.panic "Hole table full")) := by
  by_cases hclicks : clicks = 0
  · subst hclicks
    refine Or.inl ⟨t, m, freeMem_zero base, h, hm, Nat.le_succ _, ?_⟩
    intro x
    -- `free_mem` of no clicks returns at once.
    have hx : x ∉ range base 0 := by
      rw [mem_range, UInt32.toNat_zero]
      omega
    rw [cover_cons, if_neg hx, Nat.zero_add]
  · by_cases hfull : m.length = n
    · exact Or.inr ⟨hfull, freeMem_full h hfull hclicks⟩
    · have hfree := hT.freeable hm hle
      obtain ⟨t', hok, ht'⟩ := freeMem_spec h hm (h.length_le.lt_of_ne hfull) hclicks hfree
      refine Or.inl ⟨t', _, hok, ht', coalesced_insertExtent hm ?_ hfree.disjoint,
        length_insertExtent_le _ m, fun x => cover_insertExtent _ m x⟩
      exact Nat.pos_of_ne_zero fun h0 => hclicks (UInt32.toNat_inj.mp h0)

/-- Biting `clicks` off a hole on the list takes the range returned off the holes. -/
theorem HoleTable.bite_cases {n : Nat} {t : HoleTable n} {l₁ l₂ fs : List (Fin n)} {i : Fin n}
    {clicks : UInt32} (prevPtr : Option (Fin n)) (h : t.Slots (l₁ ++ i :: l₂) fs)
    (hm : Coalesced (t.extents (l₁ ++ i :: l₂))) (hprev : ∀ a ∈ l₁.getLast?, prevPtr = some a)
    (hle : clicks ≤ (t.hole i).hLen) (hstop : (t.extent i).stop ≤ 2 ^ 32) :
    ∃ t' m', t.bite prevPtr i clicks = .ok ((t.hole i).hBase, t') ∧ t'.Represents m' ∧
      Coalesced m' ∧
      m' = t.extents l₁ ++ (t.extent i).dropFront clicks.toNat ++ t.extents l₂ ∧
      ∀ x, cover (range (t.hole i).hBase clicks :: m') x = cover (t.extents (l₁ ++ i :: l₂)) x := by
  have hlen : clicks.toNat ≤ (t.extent i).len := UInt32.le_iff_toNat_le.mp hle
  obtain ⟨t', hok, ht'⟩ := bite_spec h hprev hlen hstop
  rw [extents_append, extents_cons] at hm
  refine ⟨t', _, hok, ht', hm.dropFront hlen, rfl, ?_⟩
  intro x
  have := cover_dropFront (t.extent i) hlen x
  simp only [cover_cons, cover_append, extents_append, extents_cons]
  -- The units of the hole are those of its front and of what is left.
  rw [show range (t.hole i).hBase clicks = ⟨(t.extent i).base, clicks.toNat⟩ from rfl]
  omega

section
variable [MmConfig] {mm mm' : Mm} {live : Finset (Fin nrProcs)} {T : Nat → Nat}

namespace Mm

/-! ### The images of the live processes -/

/-- What some processes hold depends on their images only. -/
theorem held_congr (h : ∀ p ∈ live, mm'.image p = mm.image p) (x : Nat) :
    mm'.held live x = mm.held live x :=
  Finset.sum_congr rfl fun p hp => by rw [h p hp]

/-- A change of one live image. -/
theorem held_move (mm mm' : Mm) {i : Fin nrProcs} (hi : i ∈ live)
    (h : ∀ p ∈ live, p ≠ i → mm'.image p = mm.image p) (x : Nat) :
    mm'.held live x + (if x ∈ mm.image i then 1 else 0)
      = mm.held live x + (if x ∈ mm'.image i then 1 else 0) := by
  -- Take the image of `i` out of both sums. The rest is the same.
  have hrest : (∑ p ∈ live.erase i, if x ∈ mm'.image p then 1 else 0)
      = ∑ p ∈ live.erase i, if x ∈ mm.image p then 1 else 0 :=
    Finset.sum_congr rfl fun p hp => by
      rw [h p (Finset.mem_of_mem_erase hp) (Finset.ne_of_mem_erase hp)]
  rw [held, held, ← Finset.add_sum_erase _ _ hi, ← Finset.add_sum_erase live _ hi, hrest]
  omega

/-- Without one of the processes its image is not counted. -/
theorem held_erase (mm : Mm) {i : Fin nrProcs} (hi : i ∈ live) (x : Nat) :
    mm.held (live.erase i) x + (if x ∈ mm.image i then 1 else 0) = mm.held live x := by
  rw [held, held, ← Finset.add_sum_erase live _ hi, Nat.add_comm]

/-- With one process more its image is counted too. -/
theorem held_insert (mm : Mm) {i : Fin nrProcs} (hi : i ∉ live) (x : Nat) :
    mm.held (insert i live) x = mm.held live x + (if x ∈ mm.image i then 1 else 0) := by
  rw [held, held, Finset.sum_insert hi, Nat.add_comm]

/-- A live image that contains `x` counts. -/
theorem held_pos_of_mem {p : Fin nrProcs} {x : Nat} (hp : p ∈ live) (hx : x ∈ mm.image p) :
    0 < mm.held live x := by
  have := held_erase mm hp x
  rw [if_pos hx] at this
  omega

/-- A click that is held belongs to the image of some process. -/
theorem exists_of_held_ne_zero {x : Nat} (h : mm.held live x ≠ 0) :
    ∃ p ∈ live, x ∈ mm.image p := by
  obtain ⟨p, hp, hx⟩ := Finset.exists_ne_zero_of_sum_ne_zero h
  refine ⟨p, hp, ?_⟩
  by_contra hout
  exact hx (if_neg hout)

/-- The slot that is written. -/
@[simp] theorem mproc_setProc_self (i : Fin nrProcs) (rmp : Mproc) :
    (mm.setProc i rmp).mproc i = rmp := by
  simp [setProc]

/-- The other slots stay as they are. -/
theorem mproc_setProc_of_ne {i p : Fin nrProcs} (h : p ≠ i) (rmp : Mproc) :
    (mm.setProc i rmp).mproc p = mm.mproc p := by
  simp [setProc, h]

/-- A write of a slot does not touch the hole table. -/
@[simp] theorem table_setProc (i : Fin nrProcs) (rmp : Mproc) :
    (mm.setProc i rmp).table = mm.table := rfl

/-- The holes and the images of the live processes are what `T` counts. -/
def Holds (mm : Mm) (live : Finset (Fin nrProcs)) (T : Nat → Nat) : Prop :=
  ∃ m, mm.table.Represents m ∧ Coalesced m ∧ ∀ x, cover m x + mm.held live x = T x

/-- The images of the live processes are disjoint, and disjoint from the holes `m`. -/
structure Apart (mm : Mm) (live : Finset (Fin nrProcs)) (m : List Extent) : Prop where
  images : ∀ p ∈ live, ∀ q ∈ live, p ≠ q → ∀ x ∈ mm.image p, x ∉ mm.image q
  holes : ∀ p ∈ live, ∀ x ∈ mm.image p, ∀ e ∈ m, x ∉ e

/-- Then no click is in two of them. -/
theorem Apart.le_one {m : List Extent} (h : mm.Apart live m) (hm : Coalesced m) (x : Nat) :
    cover m x + mm.held live x ≤ 1 := by
  have hheld : mm.held live x ≤ 1 := by
    rw [held, ← Finset.card_filter, Finset.card_le_one]
    intro p hp q hq
    rw [Finset.mem_filter] at hp hq
    by_contra hne
    exact h.images p hp.1 q hq.1 hne x hp.2 hq.2
  by_cases h0 : mm.held live x = 0
  · rw [h0]
    exact hm.cover_le_one x
  · obtain ⟨p, hp, hx⟩ := exists_of_held_ne_zero h0
    have hcover : cover m x = 0 := by
      by_contra hne
      obtain ⟨e, he, hxe⟩ := cover_pos.mp (Nat.pos_of_ne_zero hne)
      exact h.holes p hp x hx e he hxe
    omega

/-- When no click is counted twice, the images are disjoint. -/
theorem Apart.of_le_one {m : List Extent} (h : ∀ x, cover m x + mm.held live x ≤ 1) :
    mm.Apart live m := by
  constructor
  · intro p hp q hq hne x hxp hxq
    -- `q` still counts `x` when `p` is taken out, so together they count it twice.
    have hrest := held_erase mm hp x
    have hpos := held_pos_of_mem (Finset.mem_erase.mpr ⟨hne.symm, hq⟩) hxq
    have := h x
    rw [if_pos hxp] at hrest
    omega
  · intro p hp x hx e he hxe
    have hpos := held_pos_of_mem hp hx
    have hcover := cover_pos_of_mem he hxe
    have := h x
    omega

/-- The holes are a part of what `T` counts. -/
theorem cover_le_of_holds {m : List Extent} (hcover : ∀ x, cover m x + mm.held live x = T x)
    (x : Nat) : cover m x ≤ T x := by
  rw [← hcover x]
  exact Nat.le_add_right _ _

/-- What the table and the images determine is kept by a change of anything else. -/
theorem Holds.congr (h : mm.Holds live T) (htable : mm'.table = mm.table)
    (himage : ∀ p ∈ live, mm'.image p = mm.image p) : mm'.Holds live T := by
  obtain ⟨m, hrep, hm, hcover⟩ := h
  refine ⟨m, htable ▸ hrep, hm, ?_⟩
  intro x
  rw [held_congr himage, hcover]

/-! ### `free_mem` -/

/-- `free_mem` of the memory manager is that of the hole table. -/
theorem freeMem_ok {base clicks : UInt32} (hok : mm.freeMem base clicks = .ok mm') :
    ∃ table, mm.table.freeMem base clicks = .ok table ∧ mm' = { mm with table := table } := by
  rw [freeMem] at hok
  obtain ⟨table, hfree, hok⟩ := exists_of_bind hok
  exact ⟨table, hfree, (Except.ok.inj hok).symm⟩

/-- `free_mem` of a range that `T` does not count makes it a part of `T`. -/
theorem freeMem_holds {T' : Nat → Nat} {base clicks : UInt32} (hT : Territory T')
    (h : mm.Holds live T)
    (hT' : ∀ x, T' x = T x + if x ∈ range base clicks then 1 else 0)
    (hok : mm.freeMem base clicks = .ok mm') : mm'.Holds live T' := by
  obtain ⟨m, hrep, hm, hcover⟩ := h
  obtain ⟨table, hfree, rfl⟩ := freeMem_ok hok
  have hle : ∀ x, cover (range base clicks :: m) x ≤ T' x := fun x => by
    rw [cover_cons, hT' x, ← hcover x]
    omega
  rcases HoleTable.freeMem_cases hT hrep hm hle with
    ⟨t', m', hok', hrep', hm', -, hcover'⟩ | ⟨-, hfull⟩
  · rw [hok'] at hfree
    cases hfree
    refine ⟨m', hrep', hm', ?_⟩
    intro x
    show cover m' x + mm.held live x = T' x
    rw [hcover' x, cover_cons, hT' x, ← hcover x]
    omega
  · rw [hfull] at hfree
    cases hfree

end Mm

end

end Soi.Pamiec
