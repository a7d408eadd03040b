import Mathlib.Algebra.Group.Nat.Defs
import Mathlib.Data.List.FinRange
import Mathlib.Data.List.Perm.Basic
import Soi.Lib.Extent
import Soi.Lib.Seg
import Soi.Pamiec.HoleTable

/-!
# `Soi.Proofs.Pamiec.HoleTable`: what the table functions do to the hole list

`HoleTable.Slots t hs fs` reads the two pointer lists of the table: the hole list visits the
entries `hs`, the list of unused entries visits `fs`, and together they are all entries, each
once. `t.extents hs` is the list of ranges that the entries `hs` stand for.

Each function has one theorem. It says which entries the two lists visit afterwards and which
ranges they stand for:

* `delSlot_spec`: the entry moves from the hole list to the front of the unused ones;
* `merge_spec`: the ranges from the hole on are `mergeExtents` of what they were;
* `bite_spec`: one range loses its first clicks;
* `freeMem_spec`: the ranges are `insertExtent` of the block and what they were, and
  `freeMem_full`: the only way to fail is the panic of a full table.

The comparison `hp->h_base + hp->h_len == next_ptr->h_base` is made modulo 2^32. On ranges that
end below 2^32 it is `Extent.Touches`.
-/

set_option autoImplicit false

namespace Soi.Pamiec

open Soi.Lib

namespace HoleTable

variable {n : Nat} {t : HoleTable n} {hs fs l₁ l₂ : List (Fin n)} {i : Fin n}

/-- The successor pointers of the table. -/
def next (t : HoleTable n) (i : Fin n) : Option (Fin n) := (t.hole i).hNext

/-- The range of clicks that an entry stands for. -/
def extent (t : HoleTable n) (i : Fin n) : Extent :=
  ⟨(t.hole i).hBase.toNat, (t.hole i).hLen.toNat⟩

/-- The ranges of clicks of a list of entries. -/
def extents (t : HoleTable n) (l : List (Fin n)) : List Extent := l.map t.extent

/-- No entries have no ranges. -/
@[simp] theorem extents_nil : t.extents [] = [] := rfl

/-- The ranges of a list of entries, from the first one on. -/
@[simp] theorem extents_cons : t.extents (i :: l₁) = t.extent i :: t.extents l₁ := rfl

/-- The ranges of two lists of entries, one after the other. -/
@[simp] theorem extents_append : t.extents (l₁ ++ l₂) = t.extents l₁ ++ t.extents l₂ :=
  List.map_append

/-- A write of `h_next` changes the link of one entry. -/
@[simp] theorem next_setNext (p : Option (Fin n)) :
    (t.setNext i p).next = Function.update t.next i p := by
  funext j
  by_cases h : j = i
  · subst h
    simp [next, setNext]
  · simp [next, setNext, h]

/-- A write of `h_base` and `h_len` changes no link. -/
@[simp] theorem next_setRange (base len : UInt32) : (t.setRange i base len).next = t.next := by
  funext j
  by_cases h : j = i
  · subst h
    simp [next, setRange]
  · simp [next, setRange, h]

/-- A write of `h_next` changes no range. -/
@[simp] theorem extent_setNext (p : Option (Fin n)) : (t.setNext i p).extent = t.extent := by
  funext j
  by_cases h : j = i
  · subst h
    simp [extent, setNext]
  · simp [extent, setNext, h]

/-- A write of `h_base` and `h_len` changes the range of one entry. -/
@[simp] theorem extent_setRange (base len : UInt32) :
    (t.setRange i base len).extent
      = Function.update t.extent i ⟨base.toNat, len.toNat⟩ := by
  funext j
  by_cases h : j = i
  · subst h
    simp [extent, setRange]
  · simp [extent, setRange, h]

@[simp] theorem next_setHead (p : Option (Fin n)) : (t.setHead p).next = t.next := rfl

@[simp] theorem next_setFree (p : Option (Fin n)) : (t.setFree p).next = t.next := rfl

@[simp] theorem extent_setHead (p : Option (Fin n)) : (t.setHead p).extent = t.extent := rfl

@[simp] theorem extent_setFree (p : Option (Fin n)) : (t.setFree p).extent = t.extent := rfl

@[simp] theorem holeHead_setNext (p : Option (Fin n)) :
    (t.setNext i p).holeHead = t.holeHead := rfl

@[simp] theorem holeHead_setRange (base len : UInt32) :
    (t.setRange i base len).holeHead = t.holeHead := rfl

@[simp] theorem holeHead_setHead (p : Option (Fin n)) : (t.setHead p).holeHead = p := rfl

@[simp] theorem holeHead_setFree (p : Option (Fin n)) :
    (t.setFree p).holeHead = t.holeHead := rfl

@[simp] theorem freeSlots_setNext (p : Option (Fin n)) :
    (t.setNext i p).freeSlots = t.freeSlots := rfl

@[simp] theorem freeSlots_setRange (base len : UInt32) :
    (t.setRange i base len).freeSlots = t.freeSlots := rfl

@[simp] theorem freeSlots_setHead (p : Option (Fin n)) :
    (t.setHead p).freeSlots = t.freeSlots := rfl

@[simp] theorem freeSlots_setFree (p : Option (Fin n)) : (t.setFree p).freeSlots = p := rfl

/-- A change of an entry outside the list does not change the ranges of the list. -/
theorem extents_congr {t' : HoleTable n} (h : ∀ i ∈ l₁, t'.extent i = t.extent i) :
    t'.extents l₁ = t.extents l₁ := List.map_congr_left h

/-- The hole list visits `hs`, the list of unused entries visits `fs`, and each entry of the
table is on exactly one of the two. -/
structure Slots (t : HoleTable n) (hs fs : List (Fin n)) : Prop where
  holes : Seg t.next t.holeHead hs none
  free : Seg t.next t.freeSlots fs none
  perm : (hs ++ fs).Perm (List.finRange n)

/-- No entry is on a list twice, or on both of them. -/
theorem Slots.nodup (h : t.Slots hs fs) : (hs ++ fs).Nodup :=
  h.perm.nodup_iff.mpr (List.nodup_finRange n)

/-- A walk over a list of the table takes at most as many steps as the table has entries. -/
theorem Slots.length_le (h : t.Slots hs fs) : hs.length ≤ n := by
  have hlen := h.perm.length_eq
  rw [List.length_append, List.length_finRange] at hlen
  omega

/-- The two lists of a table are determined by it. -/
theorem Slots.unique {hs' fs' : List (Fin n)} (h : t.Slots hs fs) (h' : t.Slots hs' fs') :
    hs = hs' ∧ fs = fs' := ⟨h.holes.unique h'.holes, h.free.unique h'.free⟩

/-- `del_slot` of the first hole: `hole_head` goes on to the next one, and the entry is the first of
the unused ones. -/
theorem delSlot_head {prevPtr : Option (Fin n)} (h : t.holeHead = some i) :
    t.delSlot prevPtr i
      = .ok (((t.setHead (t.next i)).setNext i t.freeSlots).setFree (some i)) := by
  rw [delSlot.eq_def, if_pos h]
  rfl

/-- `del_slot` of another hole: its predecessor takes over the link. -/
theorem delSlot_of_ne {a : Fin n} (h : t.holeHead ≠ some i) :
    t.delSlot (some a) i
      = .ok (((t.setNext a (t.next i)).setNext i t.freeSlots).setFree (some i)) := by
  rw [delSlot.eq_def, if_neg h]
  rfl

/-- `del_slot` takes the entry out of the hole list and puts it in front of the unused ones.
The ranges of the other entries stay. -/
theorem delSlot_spec (prevPtr : Option (Fin n)) (h : t.Slots (l₁ ++ i :: l₂) fs)
    (hprev : ∀ a ∈ l₁.getLast?, prevPtr = some a) :
    ∃ t', t.delSlot prevPtr i = .ok t' ∧ t'.Slots (l₁ ++ l₂) (i :: fs) ∧
      t'.extent = t.extent := by
  -- `i` moves from one list to the other, and so it is on neither of the rests.
  have hperm : (l₁ ++ l₂ ++ i :: fs).Perm (List.finRange n) := by
    refine List.Perm.trans ?_ h.perm
    rw [List.append_assoc, List.append_assoc, List.cons_append]
    exact List.Perm.append_left l₁ List.perm_middle
  have hi : i ∉ l₁ ++ l₂ ++ fs := (List.nodup_cons.mp ((List.perm_middle.nodup_iff).mp
    (hperm.nodup_iff.mpr (List.nodup_finRange n)))).1
  have hholes := h.holes
  have hnd := (List.nodup_append.mp h.nodup).1
  have hdisj := (List.nodup_append.mp h.nodup).2.2
  rcases List.eq_nil_or_concat l₁ with rfl | ⟨l₀, a, rfl⟩
  · -- The first hole: `hole_head` moves on, and `prev_ptr` is not read.
    obtain ⟨hhead, hseg⟩ := hholes
    simp only [List.nil_append, List.mem_append, not_or] at hi
    refine ⟨_, delSlot_head hhead, ⟨?_, ?_, hperm⟩, by simp⟩
    · simpa [seg_update_of_notMem hi.1] using hseg
    · simpa [seg_update_of_notMem hi.2] using h.free
  · -- A hole behind `a`: the link of `a` skips it.
    rw [List.concat_eq_append] at *
    simp only [List.append_assoc, List.cons_append, List.nil_append, List.mem_append,
      List.mem_cons, not_or] at hi hholes hnd hdisj
    obtain ⟨hi₀, hia, hi₂, hif⟩ := hi
    have hne : t.holeHead ≠ some i := by
      rw [hholes.head?_eq]
      cases l₀ with
      | nil => simpa using fun h : a = i => hia h.symm
      | cons b l₀ => simpa using fun h : b = i => hi₀ (by simp [h])
    have ha : a ∉ fs := fun ha => hdisj a (by simp) a ha rfl
    rw [hprev a (by simp)]
    refine ⟨_, delSlot_of_ne hne, ⟨?_, ?_, hperm⟩, by simp⟩
    · have hmem : i ∉ l₀ ++ a :: l₂ := by simp [hi₀, hia, hi₂]
      simpa [seg_update_of_notMem hmem] using hholes.unlink hnd
    · simpa [seg_update_of_notMem hif, seg_update_of_notMem ha] using h.free

/-! ### `merge` -/

/-- The ranges of a stretch of the hole list: ascending, below 2^32, and not all the units
there are. Then the sums that `merge` computes do not wrap around. -/
structure Fits (l : List Extent) : Prop where
  asc : l.Pairwise fun e f => e.stop ≤ f.base
  stop_le : ∀ e ∈ l, e.stop ≤ 2 ^ 32
  room : ∃ x < 2 ^ 32, cover l x = 0

/-- The ranges behind the first one fit too. -/
theorem Fits.tail {e : Extent} {l : List Extent} (h : Fits (e :: l)) : Fits l where
  asc := (List.pairwise_cons.mp h.asc).2
  stop_le f hf := h.stop_le f (List.mem_cons_of_mem e hf)
  room := by
    obtain ⟨x, hx, hcover⟩ := h.room
    rw [cover_cons] at hcover
    exact ⟨x, hx, by omega⟩

/-- Two contiguous ranges make one range of less than 2^32 clicks. -/
theorem Fits.len_lt {e f : Extent} {l : List Extent} (h : Fits (e :: f :: l))
    (htouch : e.Touches f) : e.len + f.len < 2 ^ 32 := by
  obtain ⟨x, hx, hcover⟩ := h.room
  have he := notMem_of_cover_eq_zero hcover (e := e) (by simp)
  have hf := notMem_of_cover_eq_zero hcover (e := f) (by simp)
  have hstop := h.stop_le f (by simp)
  simp only [Extent.Touches, Extent.mem_def, Extent.stop] at htouch he hf hstop
  omega

/-- Two neighbours that touch can be taken as one range. -/
theorem Fits.append {e f : Extent} {l : List Extent} (h : Fits (e :: f :: l))
    (htouch : e.Touches f) : Fits (e.append f :: l) := by
  obtain ⟨-, hasc⟩ := List.pairwise_cons.mp h.asc
  obtain ⟨hf, hasc⟩ := List.pairwise_cons.mp hasc
  -- The range ends where the second one ended, and it covers what the two covered.
  have hstop : (e.append f).stop = f.stop := by
    simp only [Extent.Touches, Extent.stop, Extent.append] at htouch ⊢
    omega
  refine ⟨List.pairwise_cons.mpr ⟨fun g hg => hstop ▸ hf g hg, hasc⟩,
    List.forall_mem_cons.mpr ⟨hstop ▸ h.stop_le f (by simp),
      fun g hg => h.stop_le g (by simp [hg])⟩, ?_⟩
  obtain ⟨x, hx, hcover⟩ := h.room
  refine ⟨x, hx, ?_⟩
  have := cover_glue e (f :: l) x
  rwa [glue, if_pos htouch, hcover] at this

/-- The ranges after `merge` on a list that starts with the hole given to it. -/
def mergeExtents : List Extent → List Extent
  | [] => []
  | [e] => [e]
  | e :: f :: l => glue e (glue f l)

/-- The test of `merge`, made modulo 2^32, on two ranges in ascending order. -/
theorem touches_iff {i j : Fin n} (h : (t.extent i).stop ≤ (t.extent j).base) :
    (t.hole i).hBase + (t.hole i).hLen = (t.hole j).hBase
      ↔ (t.extent i).Touches (t.extent j) := by
  have hj := (t.hole j).hBase.toNat_lt
  simp only [Extent.stop, extent] at h
  rw [← UInt32.toNat_inj, UInt32.toNat_add, Nat.mod_eq_of_lt (by omega)]
  rfl

/-- The entry `i` absorbs its successor `j`. -/
theorem absorbNext_of_touches {j : Fin n} (h : t.Slots (l₁ ++ i :: j :: l₂) fs)
    (hfits : Fits (t.extents (i :: j :: l₂))) (htouch : (t.extent i).Touches (t.extent j)) :
    ∃ t', t.absorbNext i j = .ok (t', i) ∧ t'.Slots (l₁ ++ i :: l₂) (j :: fs) ∧
      t'.extent = Function.update t.extent i ((t.extent i).append (t.extent j)) := by
  have hlen := hfits.len_lt htouch
  -- First the length of `i` grows, which keeps both lists, and then `j` leaves the hole list.
  let t₁ := t.setRange i (t.hole i).hBase ((t.hole i).hLen + (t.hole j).hLen)
  have hslots : t₁.Slots ((l₁ ++ [i]) ++ j :: l₂) fs := by
    refine ⟨?_, ?_, ?_⟩
    · simpa [t₁] using h.holes
    · simpa [t₁] using h.free
    · simpa using h.perm
  obtain ⟨t', hdel, hslots', hext⟩ := delSlot_spec (some i) hslots (by simp)
  refine ⟨t', ?_, by simpa using hslots', ?_⟩
  · rw [absorbNext, if_pos ((touches_iff htouch.le).mpr htouch)]
    simp only [t₁] at hdel
    simp [hdel, bind, Except.bind, pure, Except.pure]
  · -- The sum of the two lengths does not wrap around.
    rw [hext, extent_setRange, UInt32.toNat_add,
      Nat.mod_eq_of_lt (show (t.hole i).hLen.toNat + (t.hole j).hLen.toNat < _ from hlen)]
    rfl

/-- The ranges of the entries before and after the one that absorbed its successor. -/
theorem extents_of_absorb {t' : HoleTable n} {e : Extent} (hnd : (l₁ ++ i :: l₂).Nodup)
    (hext : t'.extent = Function.update t.extent i e) :
    t'.extents l₁ = t.extents l₁ ∧ t'.extents (i :: l₂) = e :: t.extents l₂ := by
  obtain ⟨-, hnd₂, hdisj⟩ := List.nodup_append.mp hnd
  have hi := (List.nodup_cons.mp hnd₂).1
  refine ⟨extents_congr ?_, ?_⟩
  · intro a ha
    rw [hext, Function.update_of_ne fun hai => hdisj a ha i (by simp) hai]
  · rw [extents_cons, hext, Function.update_self]
    refine congrArg _ (extents_congr fun a ha => ?_)
    rw [hext, Function.update_of_ne (ne_of_mem_of_not_mem ha hi)]

/-- The second half of `merge` glues the range of `i` to the ones after it. -/
theorem mergeTail_spec (h : t.Slots (l₁ ++ i :: l₂) fs)
    (hfits : Fits (t.extents (i :: l₂))) :
    ∃ t' l₂' fs', t.mergeTail i = .ok t' ∧ t'.Slots (l₁ ++ l₂') fs' ∧
      t'.extents l₁ = t.extents l₁ ∧ t'.extents l₂' = glue (t.extent i) (t.extents l₂) := by
  have hnext : (t.hole i).hNext = l₂.head? := by
    obtain ⟨r, -, -, hseg⟩ := seg_append.mp h.holes
    exact hseg.head?_eq
  cases l₂ with
  | nil =>
      refine ⟨t, [i], fs, ?_, h, rfl, rfl⟩
      rw [mergeTail, hnext]
      rfl
  | cons j l₂ =>
      have hle : (t.extent i).stop ≤ (t.extent j).base :=
        (List.pairwise_cons.mp hfits.asc).1 _ (by simp)
      by_cases htouch : (t.extent i).Touches (t.extent j)
      · obtain ⟨t', habs, hslots, hext⟩ := absorbNext_of_touches h hfits htouch
        obtain ⟨hext₁, hext₂⟩ :=
          extents_of_absorb (List.nodup_append.mp hslots.nodup).1 hext
        refine ⟨t', i :: l₂, j :: fs, ?_, hslots, hext₁, ?_⟩
        · rw [mergeTail, hnext, List.head?_cons]
          simp [habs, bind, Except.bind, pure, Except.pure]
        · rw [hext₂, extents_cons, glue, if_pos htouch]
      · refine ⟨t, i :: j :: l₂, fs, ?_, h, rfl, ?_⟩
        · rw [mergeTail, hnext, List.head?_cons]
          simp [absorbNext, (touches_iff hle).not.mpr htouch, bind, Except.bind, pure,
            Except.pure]
        · rw [extents_cons, extents_cons, glue, if_neg htouch]

/-- `merge` on the hole `i`: the holes before it stay, the ones from it on are merged. -/
theorem merge_spec (h : t.Slots (l₁ ++ i :: l₂) fs) (hfits : Fits (t.extents (i :: l₂))) :
    ∃ t' l₂' fs', t.merge i = .ok t' ∧ t'.Slots (l₁ ++ l₂') fs' ∧
      t'.extents l₁ = t.extents l₁ ∧ t'.extents l₂' = mergeExtents (t.extents (i :: l₂)) := by
  have hnext : (t.hole i).hNext = l₂.head? := by
    obtain ⟨r, -, -, hseg⟩ := seg_append.mp h.holes
    exact hseg.head?_eq
  cases l₂ with
  | nil =>
      refine ⟨t, [i], fs, ?_, h, rfl, rfl⟩
      rw [merge, hnext]
      rfl
  | cons j l₂ =>
      have hle : (t.extent i).stop ≤ (t.extent j).base :=
        (List.pairwise_cons.mp hfits.asc).1 _ (by simp)
      by_cases htouch : (t.extent i).Touches (t.extent j)
      · -- `i` absorbed `j`, and the second half starts from `i` again.
        obtain ⟨t₁, habs, hslots, hext⟩ := absorbNext_of_touches h hfits htouch
        obtain ⟨hext₁, hext₂⟩ :=
          extents_of_absorb (List.nodup_append.mp hslots.nodup).1 hext
        obtain ⟨t', l₂', fs', htail, hslots', hl₁, hl₂⟩ :=
          mergeTail_spec hslots (hext₂ ▸ hfits.append htouch)
        refine ⟨t', l₂', fs', ?_, hslots', hl₁.trans hext₁, ?_⟩
        · rw [merge, hnext, List.head?_cons]
          simp [habs, htail, bind, Except.bind]
        · have hhead : t₁.extent i = (t.extent i).append (t.extent j) :=
            (List.cons.inj hext₂).1
          have htl : t₁.extents l₂ = t.extents l₂ := (List.cons.inj hext₂).2
          rw [hl₂, hhead, htl]
          simp [mergeExtents, glue_glue, htouch]
      · -- Nothing to absorb, and the second half starts from `j`.
        have hslots : t.Slots ((l₁ ++ [i]) ++ j :: l₂) fs := by simpa using h
        obtain ⟨t', l₂', fs', htail, hslots', hl₁, hl₂⟩ := mergeTail_spec hslots hfits.tail
        simp only [extents_append, extents_cons, extents_nil] at hl₁
        obtain ⟨hl₁, hi⟩ := List.append_inj' hl₁ rfl
        refine ⟨t', i :: l₂', fs', ?_, by simpa using hslots', hl₁, ?_⟩
        · rw [merge, hnext, List.head?_cons]
          simp [absorbNext, (touches_iff hle).not.mpr htouch, htail, bind, Except.bind, pure,
            Except.pure]
        · rw [extents_cons, hl₂, (List.cons.inj hi).1]
          simp [mergeExtents, glue_glue, htouch]

/-! ### `free_mem` -/

/-- The loop of `free_mem` walks over the holes below `base` and returns the last one. -/
theorem seekPlace_spec {base : UInt32} {l₁ l₂ : List (Fin n)} {hp prevPtr : Option (Fin n)}
    {fuel : Nat} (hseg : Seg t.next hp (l₁ ++ l₂) none) (hfuel : (l₁ ++ l₂).length ≤ fuel)
    (h₁ : ∀ a ∈ l₁, (t.hole a).hBase < base)
    (h₂ : ∀ a ∈ l₂.head?, ¬ (t.hole a).hBase < base) :
    t.seekPlace base fuel prevPtr hp = .ok (l₁.getLast?.or prevPtr) := by
  -- Induction on the holes below `base`. The walk stops at the first hole that is not below it.
  induction l₁ generalizing hp prevPtr fuel with
  | nil =>
      cases l₂ with
      | nil =>
          have hp : hp = none := hseg
          subst hp
          cases fuel <;> rfl
      | cons b l₂ =>
          obtain ⟨rfl, -⟩ := hseg
          cases fuel with
          | zero => simp at hfuel
          | succ fuel =>
              rw [seekPlace, if_neg (h₂ b (by simp))]
              rfl
  | cons a l₁ ih =>
      obtain ⟨rfl, hseg⟩ := hseg
      cases fuel with
      | zero => simp at hfuel
      | succ fuel =>
          rw [seekPlace, if_pos (h₁ a (by simp))]
          refine (ih hseg (by simpa using hfuel) fun b hb => h₁ b (by simp [hb])).trans ?_
          cases l₁ with
          | nil => rfl
          | cons b l₁ => simp [List.getLast?_cons]

/-- The hole list of the table stands for the ranges `m`. -/
def Represents (t : HoleTable n) (m : List Extent) : Prop :=
  ∃ hs fs, t.Slots hs fs ∧ t.extents hs = m

/-- The ranges of the holes are determined by the table. -/
theorem Represents.unique {m m' : List Extent} (h : t.Represents m) (h' : t.Represents m') :
    m = m' := by
  obtain ⟨hs, fs, hslots, rfl⟩ := h
  obtain ⟨hs', fs', hslots', rfl⟩ := h'
  rw [(hslots.unique hslots').1]

/-- A table has at least as many entries as holes. -/
theorem Represents.length_le {m : List Extent} (h : t.Represents m) : m.length ≤ n := by
  obtain ⟨hs, fs, hslots, rfl⟩ := h
  rw [extents, List.length_map]
  exact hslots.length_le

/-- An unused entry exists exactly when there are fewer holes than entries. -/
theorem Represents.freeSlots_eq_none {m : List Extent} (h : t.Represents m) :
    t.freeSlots = none ↔ m.length = n := by
  obtain ⟨hs, fs, hslots, rfl⟩ := h
  have hlen := hslots.perm.length_eq
  rw [List.length_append, List.length_finRange] at hlen
  rw [hslots.free.head?_eq, extents, List.length_map]
  cases fs with
  | nil => simpa using hlen
  | cons a fs =>
      rw [List.length_cons] at hlen
      simp only [List.head?_cons, reduceCtorEq, false_iff]
      omega

/-- A block that can be freed: it is disjoint from the holes, and the holes with the block end
below 2^32 and leave at least one click out. -/
structure Freeable (e : Extent) (m : List Extent) : Prop where
  disjoint : ∀ x ∈ e, cover m x = 0
  stop_le : ∀ f ∈ e :: m, f.stop ≤ 2 ^ 32
  room : ∃ x < 2 ^ 32, cover (e :: m) x = 0

/-- A non-empty block is above or below each of the holes that it is disjoint from. -/
theorem Freeable.apart {e f : Extent} {m : List Extent} (h : Freeable e m) (he : 0 < e.len)
    (hm : Coalesced m) (hf : f ∈ m) :
    (f.base < e.base → f.stop ≤ e.base) ∧ (e.base ≤ f.base → e.stop ≤ f.base) := by
  have hpos := hm.pos f hf
  have hdisj : ∀ x ∈ e, x ∉ f := fun x hx => notMem_of_cover_eq_zero (h.disjoint x hx) hf
  have hef := hdisj e.base (by simp only [Extent.mem_def]; omega)
  have hfe : f.base ∉ e := fun hx => hdisj _ hx (by simp only [Extent.mem_def]; omega)
  simp only [Extent.mem_def, Extent.stop] at hef hfe ⊢
  omega

/-- The stretch of the list from the block on, when the block is put at its place. -/
theorem Freeable.fits {e : Extent} {m l : List Extent} (h : Freeable e m) (he : 0 < e.len)
    (hm : Coalesced m) (hl : l.Sublist m) (hbase : ∀ f ∈ l, e.base ≤ f.base) :
    Fits (e :: l) where
  asc := List.pairwise_cons.mpr
    ⟨fun f hf => (h.apart he hm (hl.subset hf)).2 (hbase f hf),
      (hm.sublist hl).gap.imp fun h => h.le⟩
  stop_le := List.forall_mem_cons.mpr ⟨h.stop_le e List.mem_cons_self,
    fun f hf => h.stop_le f (List.mem_cons_of_mem e (hl.subset hf))⟩
  room := by
    obtain ⟨x, hx, hcover⟩ := h.room
    refine ⟨x, hx, Nat.eq_zero_of_le_zero (hcover ▸ ?_)⟩
    exact (hl.cons_cons e).countP_le

/-- The stretch of the list from the hole on that the block is put behind. -/
theorem Freeable.fits_cons {e f : Extent} {m l : List Extent} (h : Freeable e m)
    (he : 0 < e.len) (hm : Coalesced m) (hl : (f :: l).Sublist m) (hf : f.base < e.base)
    (hbase : ∀ g ∈ l, e.base ≤ g.base) : Fits (f :: e :: l) := by
  have hl' := (List.sublist_cons_self f l).trans hl
  have hfm : f ∈ m := hl.subset List.mem_cons_self
  have hfits := h.fits he hm hl' hbase
  refine ⟨List.pairwise_cons.mpr ⟨?_, hfits.asc⟩,
    List.forall_mem_cons.mpr ⟨h.stop_le f (List.mem_cons_of_mem e hfm), hfits.stop_le⟩, ?_⟩
  · refine List.forall_mem_cons.mpr ⟨(h.apart he hm hfm).1 hf, ?_⟩
    intro g hg
    exact ((coalesced_cons.mp (hm.sublist hl)).2.1 g hg).le
  · obtain ⟨x, hx, hcover⟩ := h.room
    refine ⟨x, hx, ?_⟩
    have hle : cover (f :: l) x ≤ cover m x := hl.countP_le
    simp only [cover_cons] at hcover hle ⊢
    omega

/-- The ranges when the block becomes the first hole. -/
theorem mergeExtents_front {e : Extent} {m : List Extent} (hm : Coalesced m)
    (hbase : ∀ f ∈ m.head?, e.base ≤ f.base) : mergeExtents (e :: m) = insertExtent e m := by
  cases m with
  | nil => rfl
  | cons f m =>
      rw [mergeExtents, glue_of_lt (coalesced_cons.mp hm).2.1, insertExtent,
        if_pos (hbase f rfl)]

/-- `free_mem` of nothing does nothing. -/
theorem freeMem_zero (base : UInt32) : t.freeMem base 0 = .ok t := rfl

/-- A full table ends in the panic. -/
theorem freeMem_full {m : List Extent} (h : t.Represents m) (hfull : m.length = n)
    {base clicks : UInt32} (hclicks : clicks ≠ 0) :
    t.freeMem base clicks = .error (.panic "Hole table full") := by
  rw [freeMem, if_neg hclicks, h.freeSlots_eq_none.mpr hfull]
  rfl

/-- The holes below `base` come first. -/
theorem exists_split_base (base : UInt32) (hs : List (Fin n))
    (hsorted : (t.extents hs).Pairwise fun e f => e.stop < f.base) :
    ∃ l₁ l₂, hs = l₁ ++ l₂ ∧ (∀ a ∈ l₁, (t.hole a).hBase < base) ∧
      ∀ a ∈ l₂, ¬ (t.hole a).hBase < base := by
  induction hs with
  | nil => exact ⟨[], [], rfl, by simp, by simp⟩
  | cons a hs ih =>
      obtain ⟨hlt, hsorted⟩ := List.pairwise_cons.mp hsorted
      by_cases ha : (t.hole a).hBase < base
      · obtain ⟨l₁, l₂, rfl, h₁, h₂⟩ := ih hsorted
        exact ⟨a :: l₁, l₂, rfl, List.forall_mem_cons.mpr ⟨ha, h₁⟩, h₂⟩
      · -- The holes are in ascending order, so no hole behind `a` is below `base` either.
        refine ⟨[], a :: hs, rfl, by simp, List.forall_mem_cons.mpr ⟨ha, ?_⟩⟩
        intro b hb
        have hab := hlt (t.extent b) (List.mem_map_of_mem hb)
        simp only [Extent.stop, extent, UInt32.lt_iff_toNat_lt] at hab ha ⊢
        omega

@[simp] theorem next_takeSlot (base clicks : UInt32) :
    (t.takeSlot i base clicks).next = t.next := by
  simp [takeSlot]

@[simp] theorem holeHead_takeSlot (base clicks : UInt32) :
    (t.takeSlot i base clicks).holeHead = t.holeHead := rfl

@[simp] theorem freeSlots_takeSlot (base clicks : UInt32) :
    (t.takeSlot i base clicks).freeSlots = t.next i := by
  simp [takeSlot, setRange, next]

/-- The entry that is taken gets the range of the block, and the others keep theirs. -/
@[simp] theorem extent_takeSlot (base clicks : UInt32) :
    (t.takeSlot i base clicks).extent
      = Function.update t.extent i ⟨base.toNat, clicks.toNat⟩ := by
  simp [takeSlot]

/-- The base of an entry, read from its range. -/
theorem hBase_lt_iff {base : UInt32} :
    (t.hole i).hBase < base ↔ (t.extent i).base < base.toNat := UInt32.lt_iff_toNat_lt

/-- When the entries of `low` start below `base` and those of `high` do not, the entries below
`base` are those of `low`. -/
theorem filter_below {base : UInt32} {low high : List (Fin n)}
    (hlow : ∀ i ∈ low, (t.hole i).hBase < base) (hhigh : ∀ i ∈ high, ¬ (t.hole i).hBase < base) :
    (low ++ high).filter (fun i => (t.hole i).hBase < base) = low := by
  have hkeep : low.filter (fun i => (t.hole i).hBase < base) = low :=
    List.filter_eq_self.mpr fun i hi => decide_eq_true (hlow i hi)
  have hdrop : high.filter (fun i => (t.hole i).hBase < base) = [] :=
    List.filter_eq_nil_iff.mpr fun i hi => by simpa using hhigh i hi
  rw [List.filter_append, hkeep, hdrop, List.append_nil]

/-- The same about the ranges of the entries. -/
theorem extents_filter_below {base : UInt32} {low high : List (Fin n)}
    (hlow : ∀ i ∈ low, (t.hole i).hBase < base) (hhigh : ∀ i ∈ high, ¬ (t.hole i).hBase < base) :
    (t.extents (low ++ high)).filter (fun e => e.base < base.toNat) = t.extents low := by
  have hsame : ((fun e : Extent => decide (e.base < base.toNat)) ∘ t.extent)
      = fun i => decide ((t.hole i).hBase < base) :=
    funext fun i => decide_eq_decide.mpr hBase_lt_iff.symm
  rw [extents, List.filter_map, hsame, filter_below hlow hhigh, extents]

/-- A block goes in front of all the holes when the first hole is not below it. -/
theorem goesOnFront_iff {base : UInt32} (h : Seg t.next t.holeHead hs none) :
    t.goesOnFront base ↔ ∀ f ∈ (t.extents hs).head?, base.toNat ≤ f.base := by
  rw [goesOnFront, h.head?_eq]
  cases hs with
  | nil => simp
  | cons a hs => simp [UInt32.le_iff_toNat_le, extent]

/-- The new hole in front of the list. -/
theorem slots_front {newPtr : Fin n} {base clicks : UInt32}
    (h : t.Slots hs (newPtr :: fs)) :
    (((t.takeSlot newPtr base clicks).setNext newPtr t.holeHead).setHead
      (some newPtr)).Slots (newPtr :: hs) fs := by
  have hperm : (newPtr :: hs ++ fs).Perm (List.finRange n) :=
    List.perm_middle.symm.trans h.perm
  have hnd := hperm.nodup_iff.mpr (List.nodup_finRange n)
  have hmem : newPtr ∉ hs ++ fs := (List.nodup_cons.mp hnd).1
  rw [List.mem_append, not_or] at hmem
  refine ⟨?_, ?_, hperm⟩
  · simpa [seg_update_of_notMem hmem.1] using h.holes
  · simpa [seg_update_of_notMem hmem.2] using h.free.2

/-- The new hole behind the hole `p`. -/
theorem slots_behind {newPtr p : Fin n} {base clicks : UInt32}
    (h : t.Slots (l₁ ++ p :: l₂) (newPtr :: fs)) :
    (((t.takeSlot newPtr base clicks).setNext newPtr (t.next p)).setNext p
      (some newPtr)).Slots (l₁ ++ p :: newPtr :: l₂) fs := by
  have hperm : (l₁ ++ p :: newPtr :: l₂ ++ fs).Perm (List.finRange n) := by
    refine List.Perm.trans ?_ h.perm
    simp only [List.append_assoc, List.cons_append]
    exact List.Perm.append_left l₁ (List.Perm.cons p List.perm_middle.symm)
  obtain ⟨hnd, hndf, hdisj⟩ := List.nodup_append.mp h.nodup
  have hnew : newPtr ∉ l₁ ++ p :: l₂ := fun hmem =>
    hdisj newPtr hmem newPtr List.mem_cons_self rfl
  have hp : p ∉ fs := fun hmem =>
    hdisj p (by simp) p (List.mem_cons_of_mem newPtr hmem) rfl
  refine ⟨?_, ?_, hperm⟩
  · simpa using h.holes.link hnd hnew
  · have hf := h.free.2
    rw [← seg_update_of_notMem (r := t.next p) (List.nodup_cons.mp hndf).1,
      ← seg_update_of_notMem (r := some newPtr) hp] at hf
    simpa using hf

/-- Writing the block into the unused entry leaves the ranges of the other entries alone. -/
theorem extents_takeSlot (t : HoleTable n) {newPtr : Fin n} (base clicks : UInt32)
    {l : List (Fin n)} (h : newPtr ∉ l) : (t.takeSlot newPtr base clicks).extents l = t.extents l :=
  extents_congr fun a ha => by
    rw [extent_takeSlot, Function.update_of_ne (ne_of_mem_of_not_mem ha h)]

/-- The new hole goes on front of the list. -/
theorem placeHole_front {newPtr : Fin n} {base clicks : UInt32}
    (hslots : t.Slots hs (newPtr :: fs)) (hm : Coalesced (t.extents hs))
    (hpos : 0 < clicks.toNat) (hfree : Freeable ⟨base.toNat, clicks.toNat⟩ (t.extents hs))
    (hfront : ∀ f ∈ t.extents hs, base.toNat ≤ f.base) :
    ∃ t', (t.takeSlot newPtr base clicks).placeHole newPtr base = .ok t' ∧
      t'.Represents (insertExtent ⟨base.toNat, clicks.toNat⟩ (t.extents hs)) := by
  have hnew : newPtr ∉ hs := fun hmem =>
    (List.nodup_append.mp hslots.nodup).2.2 newPtr hmem newPtr List.mem_cons_self rfl
  have hext := extents_takeSlot t base clicks hnew
  -- The block is not above the first hole, so `free_mem` does not walk.
  have htest : (t.takeSlot newPtr base clicks).goesOnFront base := by
    rw [goesOnFront_iff (by simpa using hslots.holes), hext]
    exact fun f hf => hfront f (List.mem_of_mem_head? hf)
  -- The list to merge: the block, and the old holes behind it.
  have hrange : (((t.takeSlot newPtr base clicks).setNext newPtr t.holeHead).setHead
      (some newPtr)).extents (newPtr :: hs)
        = ⟨base.toNat, clicks.toNat⟩ :: t.extents hs := by
    refine congrArg₂ List.cons ?_ ((extents_congr fun a _ => ?_).trans hext)
    · simp
    · simp
  have hfits := hfree.fits hpos hm (List.Sublist.refl _) hfront
  obtain ⟨t', hs', fs', hmerge, hslots', -, hext'⟩ :=
    merge_spec (show Slots _ ([] ++ newPtr :: hs) fs from slots_front hslots) (hrange ▸ hfits)
  refine ⟨t', ?_, hs', fs', hslots', ?_⟩
  · rw [placeHole, if_pos htest]
    exact hmerge
  · rw [hext', hrange, mergeExtents_front hm fun f hf => hfront f (List.mem_of_mem_head? hf)]

/-- The new hole goes behind the last hole below it. -/
theorem placeHole_behind {newPtr p : Fin n} {base clicks : UInt32}
    (hslots : t.Slots (l₁ ++ p :: l₂) (newPtr :: fs))
    (hm : Coalesced (t.extents (l₁ ++ p :: l₂))) (hpos : 0 < clicks.toNat)
    (hfree : Freeable ⟨base.toNat, clicks.toNat⟩ (t.extents (l₁ ++ p :: l₂)))
    (hbelow : ∀ a ∈ l₁ ++ [p], (t.extent a).base < base.toNat)
    (habove : ∀ a ∈ l₂, base.toNat ≤ (t.extent a).base) :
    ∃ t', (t.takeSlot newPtr base clicks).placeHole newPtr base = .ok t' ∧
      t'.Represents
        (insertExtent ⟨base.toNat, clicks.toNat⟩ (t.extents (l₁ ++ p :: l₂))) := by
  set t₁ := t.takeSlot newPtr base clicks with ht₁
  have hnew : newPtr ∉ l₁ ++ p :: l₂ := fun hmem =>
    (List.nodup_append.mp hslots.nodup).2.2 newPtr hmem newPtr List.mem_cons_self rfl
  have hext₁ : t₁.extents l₁ = t.extents l₁ :=
    extents_takeSlot t base clicks fun h => hnew (by simp [h])
  have hext₂ : t₁.extents l₂ = t.extents l₂ :=
    extents_takeSlot t base clicks fun h => hnew (by simp [h])
  have hbase : ∀ a ∈ l₁ ++ p :: l₂,
      ((t₁.hole a).hBase < base ↔ (t.extent a).base < base.toNat) := by
    intro a ha
    rw [hBase_lt_iff, ht₁, extent_takeSlot,
      Function.update_of_ne (ne_of_mem_of_not_mem ha hnew)]
  have hholes : Seg t₁.next t₁.holeHead ((l₁ ++ [p]) ++ l₂) none := by
    simpa [ht₁] using hslots.holes
  -- The first hole is below the block, and the walk ends at `p`.
  have htest : ¬ t₁.goesOnFront base := by
    obtain ⟨a, ha, hhead⟩ : ∃ a ∈ l₁ ++ [p], ((l₁ ++ [p]) ++ l₂).head? = some a := by
      cases l₁ with
      | nil => exact ⟨p, by simp, rfl⟩
      | cons a l₁ => exact ⟨a, by simp, rfl⟩
    rw [goesOnFront, hholes.head?_eq, hhead]
    have := (hbase a (by simp at ha ⊢; tauto)).mpr (hbelow a ha)
    simpa using this
  have hseek : t₁.seekPlace base n none t₁.holeHead = .ok (some p) := by
    rw [seekPlace_spec hholes (by simpa using hslots.length_le)
      (fun a ha => (hbase a (by simp at ha ⊢; tauto)).mpr (hbelow a ha)) ?_]
    · simp
    · intro a ha
      rw [hbase a (by simp [List.mem_of_mem_head? ha])]
      exact Nat.not_lt.mpr (habove a (List.mem_of_mem_head? ha))
  -- The new entry is linked in behind `p`, and `merge` starts from `p`.
  set t₂ := (t₁.setNext newPtr (t₁.next p)).setNext p (some newPtr) with ht₂
  have hlinks : ∀ l, t₂.extents l = t₁.extents l := fun l => extents_congr fun a _ => by
    rw [ht₂, extent_setNext, extent_setNext]
  have hrange : t₂.extents (p :: newPtr :: l₂)
      = t.extent p :: ⟨base.toNat, clicks.toNat⟩ :: t.extents l₂ := by
    have hne : p ≠ newPtr := fun h => hnew (by simp [h])
    rw [hlinks, extents_cons, extents_cons, hext₂, ht₁, extent_takeSlot, Function.update_self,
      Function.update_of_ne hne]
  have hslots₂ : t₂.Slots (l₁ ++ p :: newPtr :: l₂) fs := by
    rw [ht₂, ht₁, next_takeSlot]
    exact slots_behind hslots
  have hsub : (t.extents (p :: l₂)).Sublist (t.extents (l₁ ++ p :: l₂)) := by
    rw [extents_append]
    exact List.sublist_append_right _ _
  have hfits : Fits (t₂.extents (p :: newPtr :: l₂)) := by
    rw [hrange]
    exact hfree.fits_cons hpos hm hsub (hbelow p (by simp))
      (by simpa [extents] using habove)
  obtain ⟨t', l₂', fs', hmerge, hslots', hl₁, hl₂⟩ := merge_spec hslots₂ hfits
  refine ⟨t', ?_, l₁ ++ l₂', fs', hslots', ?_⟩
  · rw [placeHole, if_neg htest, hseek]
    exact hmerge
  · rw [extents_append, hl₁, hl₂, hrange, hlinks, hext₁, extents_append, extents_cons,
      insertExtent_append (by simpa using hm) (hbelow p (by simp))]
    · rfl
    · intro f hf
      obtain ⟨a, ha, rfl⟩ := List.mem_map.mp (List.mem_of_mem_head? hf)
      exact habove a ha

/-- `free_mem` with an unused entry at hand adds the block to the holes. -/
theorem freeMem_spec {m : List Extent} {base clicks : UInt32} (h : t.Represents m)
    (hm : Coalesced m) (hslot : m.length < n) (hclicks : clicks ≠ 0)
    (hfree : Freeable ⟨base.toNat, clicks.toNat⟩ m) :
    ∃ t', t.freeMem base clicks = .ok t' ∧
      t'.Represents (insertExtent ⟨base.toNat, clicks.toNat⟩ m) := by
  have hpos : 0 < clicks.toNat := by
    have := UInt32.toNat_inj.not.mpr hclicks
    rw [UInt32.toNat_zero] at this
    omega
  have hnone := h.freeSlots_eq_none.not.mpr hslot.ne
  obtain ⟨hs, fs, hslots, rfl⟩ := h
  obtain ⟨newPtr, hnew⟩ := Option.ne_none_iff_exists'.mp hnone
  rw [freeMem, if_neg hclicks, hnew]
  cases fs with
  | nil => exact absurd (hslots.free.head?_eq) hnone
  | cons a fs =>
      have ha : a = newPtr := Option.some.inj (hslots.free.1.symm.trans hnew)
      subst ha
      -- The place of the block: in front of all the holes, or behind the last hole below it.
      obtain ⟨l₁, l₂, rfl, h₁, h₂⟩ := exists_split_base base hs hm.gap
      simp only [hBase_lt_iff, Nat.not_lt] at h₁ h₂
      rcases List.eq_nil_or_concat l₁ with rfl | ⟨l₀, p, rfl⟩
      · exact placeHole_front hslots hm hpos hfree (by simpa [extents] using h₂)
      · rw [List.concat_eq_append, List.append_assoc, List.singleton_append] at *
        exact placeHole_behind hslots hm hpos hfree (by simpa using h₁) h₂

/-! ### Taking a piece of a hole -/

/-- Biting `clicks` off a big enough hole returns where it started and leaves the other holes
alone. -/
theorem bite_spec {prevPtr : Option (Fin n)} {clicks : UInt32}
    (h : t.Slots (l₁ ++ i :: l₂) fs) (hprev : ∀ a ∈ l₁.getLast?, prevPtr = some a)
    (hle : clicks.toNat ≤ (t.extent i).len) (hstop : (t.extent i).stop ≤ 2 ^ 32) :
    ∃ t', t.bite prevPtr i clicks = .ok ((t.hole i).hBase, t') ∧
      t'.Represents
        (t.extents l₁ ++ (t.extent i).dropFront clicks.toNat ++ t.extents l₂) := by
  -- `alloc_mem` and `swap_out` shrink the hole before they look whether anything is left.
  set t₁ := t.setRange i ((t.hole i).hBase + clicks) ((t.hole i).hLen - clicks) with ht₁
  have hlen : ((t.hole i).hLen - clicks).toNat = (t.extent i).len - clicks.toNat :=
    UInt32.toNat_sub_of_le _ _ (UInt32.le_iff_toNat_le.mpr hle)
  have hslots : t₁.Slots (l₁ ++ i :: l₂) fs := by
    refine ⟨?_, ?_, h.perm⟩
    · simpa [ht₁] using h.holes
    · simpa [ht₁] using h.free
  have hnew : (t₁.hole i).hLen = (t.hole i).hLen - clicks := by simp [ht₁, setRange]
  obtain ⟨hext₁, hext₂⟩ : t₁.extents l₁ = t.extents l₁ ∧ t₁.extents (i :: l₂) =
      ⟨((t.hole i).hBase + clicks).toNat, ((t.hole i).hLen - clicks).toNat⟩ :: t.extents l₂ :=
    extents_of_absorb (List.nodup_append.mp h.nodup).1 (by rw [ht₁, extent_setRange])
  obtain ⟨hi, htail⟩ := List.cons.inj hext₂
  by_cases hzero : (t.hole i).hLen - clicks = 0
  · -- Used up completely: the entry leaves the list.
    obtain ⟨t', hdel, hslots', hext⟩ := delSlot_spec prevPtr hslots hprev
    have hused : (t.extent i).len = clicks.toNat := by
      rw [hzero, UInt32.toNat_zero] at hlen
      omega
    refine ⟨t', ?_, l₁ ++ l₂, _, hslots', ?_⟩
    · rw [bite, ← ht₁, hnew, if_pos hzero, hdel]
      rfl
    · have : t'.extents (l₁ ++ l₂) = t₁.extents (l₁ ++ l₂) :=
        extents_congr fun a _ => by rw [hext]
      rw [this, extents_append, hext₁, Extent.dropFront, if_pos hused, List.append_nil]
      exact congrArg _ htail
  · -- Something is left: the entry stays on the list with a smaller range.
    have hrest : (t.extent i).len ≠ clicks.toNat := fun heq => hzero (by
      rw [← UInt32.toNat_inj, hlen, heq, Nat.sub_self, UInt32.toNat_zero])
    have hbase : ((t.hole i).hBase + clicks).toNat = (t.extent i).base + clicks.toNat := by
      rw [UInt32.toNat_add, Nat.mod_eq_of_lt]
      · rfl
      · simp only [extent, Extent.stop] at hle hstop hrest
        omega
    refine ⟨t₁, ?_, l₁ ++ i :: l₂, fs, hslots, ?_⟩
    · rw [bite, ← ht₁, hnew, if_neg hzero]
      rfl
    · rw [extents_append, hext₁, hext₂, Extent.dropFront, if_neg hrest, hbase, hlen,
        List.append_assoc, List.singleton_append]

end HoleTable

end Soi.Pamiec
