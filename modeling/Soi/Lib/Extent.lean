import Mathlib.Data.List.Count
import Mathlib.Data.List.Pairwise
import Mathlib.Data.List.Sort
import Mathlib.Order.Basic

/-!
# `Soi.Lib.Extent`: ranges of units and coalesced range lists

An `Extent` is a half-open range of units, `len` of them from `base` on. `cover l x` is the
number of extents in the list `l` that contain the unit `x`. Two families are disjoint when
their covers add up to at most one, and a list partitions a region when its cover is one on
the region and zero outside. So a change of ownership is an equation between covers.

`Coalesced l` is the normal form of a set of units: the extents are not empty, in ascending
order, and no two of them overlap or touch. `Coalesced.ext` states that a set has at most one
normal form. The operations on it:

* `insertExtent e l` adds the units of `e`, merged with a neighbour that it touches
  (`coalesced_insertExtent`, `cover_insertExtent`);
* `Extent.dropFront e n` takes the first `n` units off one extent
  (`Coalesced.dropFront`, `cover_dropFront`);
* `Extent.diff e f` removes the units of `f` from `e` (`cover_diff`).
-/

set_option autoImplicit false

namespace Soi.Lib

/-- A range of `len` units that starts at `base`. -/
structure Extent where
  base : Nat
  len : Nat
  deriving DecidableEq, Repr

namespace Extent

/-- The first unit after the extent. -/
def stop (e : Extent) : Nat := e.base + e.len

instance : Membership Nat Extent := ⟨fun e x => e.base ≤ x ∧ x < e.stop⟩

/-- A unit is in an extent when it is between its two ends. This is the only way to look into an
extent, so that `omega` can do the rest. -/
theorem mem_def {e : Extent} {x : Nat} : x ∈ e ↔ e.base ≤ x ∧ x < e.base + e.len := Iff.rfl

instance (e : Extent) (x : Nat) : Decidable (x ∈ e) :=
  inferInstanceAs (Decidable (e.base ≤ x ∧ x < e.stop))

/-- The last unit of one extent is just below the first unit of the other. -/
def Touches (e f : Extent) : Prop := e.stop = f.base

instance (e f : Extent) : Decidable (Touches e f) := inferInstanceAs (Decidable (_ = _))

/-- The extent that starts with `e` and goes on for the length of `f`. -/
def append (e f : Extent) : Extent := ⟨e.base, e.len + f.len⟩

/-- The extent without its first `n` units, as a list: nothing is left of a used-up one. -/
def dropFront (e : Extent) (n : Nat) : List Extent :=
  if e.len = n then [] else [⟨e.base + n, e.len - n⟩]

/-- What is left of `e` when the units of `f` are removed: a part below and a part above. -/
def diff (e f : Extent) : List Extent :=
  if f.len = 0 then [e]
  else [⟨e.base, min e.stop f.base - e.base⟩,
    ⟨max e.base f.stop, e.stop - max e.base f.stop⟩].filter fun g => g.len ≠ 0

end Extent

/-! ### Covers -/

/-- The number of extents in the list that contain the unit `x`. -/
def cover (l : List Extent) (x : Nat) : Nat := l.countP fun e => decide (x ∈ e)

/-- No extent covers nothing. -/
@[simp] theorem cover_nil (x : Nat) : cover [] x = 0 := rfl

/-- The first extent counts one where it has the unit, and the others count as before. -/
theorem cover_cons (e : Extent) (l : List Extent) (x : Nat) :
    cover (e :: l) x = (if x ∈ e then 1 else 0) + cover l x := by
  unfold cover
  rw [List.countP_cons, Nat.add_comm]
  simp only [decide_eq_true_eq]

/-- The covers of two lists add up. -/
@[simp] theorem cover_append (l₁ l₂ : List Extent) (x : Nat) :
    cover (l₁ ++ l₂) x = cover l₁ x + cover l₂ x := List.countP_append

/-- The cover does not depend on the order of the extents. -/
theorem cover_perm {l₁ l₂ : List Extent} (h : l₁.Perm l₂) (x : Nat) :
    cover l₁ x = cover l₂ x := h.countP_eq _

/-- A unit is covered just when some extent has it. -/
theorem cover_pos {l : List Extent} {x : Nat} : 0 < cover l x ↔ ∃ e ∈ l, x ∈ e := by
  simp [cover, List.countP_pos_iff]

/-- An extent of the list covers its units. -/
theorem cover_pos_of_mem {l : List Extent} {e : Extent} {x : Nat} (he : e ∈ l) (hx : x ∈ e) :
    0 < cover l x := cover_pos.mpr ⟨e, he, hx⟩

/-- No extent of the list contains a unit that the list does not cover. -/
theorem notMem_of_cover_eq_zero {l : List Extent} {e : Extent} {x : Nat} (h : cover l x = 0)
    (he : e ∈ l) : x ∉ e := fun hx => by
  have := cover_pos_of_mem he hx
  omega

/-- An extent of the list that starts at or below an uncovered unit ends there at the
latest. -/
theorem stop_le_of_cover_eq_zero {l : List Extent} {e : Extent} {x : Nat} (h : cover l x = 0)
    (he : e ∈ l) (hx : e.base ≤ x) : e.stop ≤ x := by
  have hout := notMem_of_cover_eq_zero h he
  simp only [Extent.mem_def, Extent.stop] at hout ⊢
  omega

/-- Taking one extent off the list. -/
theorem cover_erase {l : List Extent} {e : Extent} (he : e ∈ l) (x : Nat) :
    (if x ∈ e then 1 else 0) + cover (l.erase e) x = cover l x := by
  rw [← cover_cons, cover_perm (List.perm_cons_erase he).symm]

/-- What is left of an extent is one extent or none. -/
theorem length_dropFront_le (e : Extent) (n : Nat) : (e.dropFront n).length ≤ 1 := by
  rw [Extent.dropFront]
  split_ifs
  · exact Nat.zero_le 1
  · exact Nat.le_refl 1

/-- The units of the front part and of the rest are the units of the extent. -/
theorem cover_dropFront (e : Extent) {n : Nat} (hn : n ≤ e.len) (x : Nat) :
    cover (e.dropFront n) x + (if x ∈ (⟨e.base, n⟩ : Extent) then 1 else 0)
      = if x ∈ e then 1 else 0 := by
  unfold Extent.dropFront
  split
  · rename_i h
    subst h
    simp
  · simp only [cover_cons, cover_nil, Extent.mem_def]
    split_ifs <;> omega

/-- The units of `e` outside `f`, each covered once. -/
theorem cover_diff (e f : Extent) (x : Nat) :
    cover (e.diff f) x = if x ∈ f then 0 else if x ∈ e then 1 else 0 := by
  have hfilter : ∀ l : List Extent, cover (l.filter fun g => g.len ≠ 0) x = cover l x := by
    intro l
    induction l with
    | nil => rfl
    | cons g l ih =>
        rw [List.filter_cons, cover_cons]
        split
        · rw [cover_cons, ih]
        · rename_i hg
          have hlen : g.len = 0 := by simpa using hg
          have hx : x ∉ g := by simp only [Extent.mem_def]; omega
          rw [ih, if_neg hx, Nat.zero_add]
  unfold Extent.diff
  split
  · rename_i hf
    have hx : x ∉ f := by simp only [Extent.mem_def]; omega
    rw [if_neg hx, cover_cons, cover_nil, Nat.add_zero]
  · rw [hfilter]
    simp only [cover_cons, cover_nil, Extent.mem_def, Extent.stop]
    split_ifs <;> omega

/-- Removing the units of `f` from every extent of the list. -/
theorem cover_flatMap_diff (l : List Extent) (f : Extent) (x : Nat) :
    cover (l.flatMap fun e => e.diff f) x = if x ∈ f then 0 else cover l x := by
  induction l with
  | nil => simp
  | cons e l ih =>
      rw [List.flatMap_cons, cover_append, ih, cover_diff, cover_cons]
      split_ifs <;> rfl

/-! ### The normal form -/

/-- Non-empty extents in ascending order that neither overlap nor touch. -/
structure Coalesced (l : List Extent) : Prop where
  pos : ∀ e ∈ l, 0 < e.len
  gap : l.Pairwise fun e f => e.stop < f.base

/-- The empty list is coalesced. -/
theorem coalesced_nil : Coalesced [] := ⟨by simp, List.Pairwise.nil⟩

/-- A coalesced list is an extent that is not empty, a gap behind it, and a coalesced list. -/
theorem coalesced_cons {e : Extent} {l : List Extent} :
    Coalesced (e :: l) ↔ 0 < e.len ∧ (∀ f ∈ l, e.stop < f.base) ∧ Coalesced l := by
  constructor
  · rintro ⟨hpos, hgap⟩
    obtain ⟨h₁, h₂⟩ := List.pairwise_cons.mp hgap
    exact ⟨hpos e List.mem_cons_self, h₁, fun f hf => hpos f (List.mem_cons_of_mem e hf), h₂⟩
  · rintro ⟨hpos, h₁, h₂⟩
    exact ⟨List.forall_mem_cons.mpr ⟨hpos, h₂.pos⟩, List.pairwise_cons.mpr ⟨h₁, h₂.gap⟩⟩

/-- An extent can leave a coalesced list: the gaps can only get wider. -/
theorem Coalesced.sublist {l l' : List Extent} (h : Coalesced l) (hl : l'.Sublist l) :
    Coalesced l' := ⟨fun e he => h.pos e (hl.subset he), h.gap.sublist hl⟩

/-- A coalesced list covers each unit at most once. -/
theorem Coalesced.cover_le_one {l : List Extent} (h : Coalesced l) (x : Nat) :
    cover l x ≤ 1 := by
  induction l with
  | nil => simp
  | cons e l ih =>
      obtain ⟨-, hgap, hl⟩ := coalesced_cons.mp h
      rw [cover_cons]
      split
      · rename_i hx
        have hzero : cover l x = 0 := by
          by_contra hne
          obtain ⟨f, hf, hxf⟩ := cover_pos.mp (Nat.pos_of_ne_zero hne)
          have := hgap f hf
          simp only [Extent.mem_def, Extent.stop] at hx hxf this
          omega
        omega
      · have := ih hl
        omega

/-- Two extents of a coalesced list are equal, or one ends strictly before the other
starts. -/
theorem Coalesced.apart {l : List Extent} (h : Coalesced l) {e f : Extent} (he : e ∈ l)
    (hf : f ∈ l) : e = f ∨ e.stop < f.base ∨ f.stop < e.base := by
  induction l with
  | nil => simp at he
  | cons g l ih =>
      obtain ⟨-, hgap, hl⟩ := coalesced_cons.mp h
      rcases List.mem_cons.mp he with he | he <;> rcases List.mem_cons.mp hf with hf | hf
      · exact Or.inl (he.trans hf.symm)
      · exact Or.inr (Or.inl (he ▸ hgap f hf))
      · exact Or.inr (Or.inr (hf ▸ hgap e he))
      · exact ih hl he hf

/-- The unit just above an extent of a coalesced list is not covered. -/
theorem Coalesced.cover_stop {l : List Extent} (h : Coalesced l) {e : Extent} (he : e ∈ l) :
    cover l e.stop = 0 := by
  by_contra hne
  obtain ⟨f, hf, hxf⟩ := cover_pos.mp (Nat.pos_of_ne_zero hne)
  rcases h.apart he hf with rfl | hef | hef
  · simp only [Extent.mem_def, Extent.stop] at hxf
    omega
  · exact absurd hxf.1 (Nat.not_le.mpr hef)
  · simp only [Extent.mem_def, Extent.stop] at hxf hef
    omega

/-- A coalesced list that covers every unit below `n` is one extent of at least `n` units. -/
theorem Coalesced.exists_cover_eq_zero {l : List Extent} (h : Coalesced l) {n : Nat}
    (hn : 0 < n) (hlen : ∀ e ∈ l, e.len < n) : ∃ x < n, cover l x = 0 := by
  cases l with
  | nil => exact ⟨0, hn, rfl⟩
  | cons e l =>
      by_cases hbase : e.base = 0
      · have hlt := hlen e List.mem_cons_self
        refine ⟨e.stop, ?_, h.cover_stop List.mem_cons_self⟩
        simp only [Extent.stop, hbase]
        omega
      · refine ⟨0, hn, ?_⟩
        by_contra hne
        obtain ⟨f, hf, hx⟩ := cover_pos.mp (Nat.pos_of_ne_zero hne)
        rcases List.mem_cons.mp hf with rfl | hf
        · simp only [Extent.mem_def] at hx
          omega
        · have := (coalesced_cons.mp h).2.1 f hf
          simp only [Extent.mem_def] at hx
          omega

/-- The first extent starts at the least covered unit, and it ends where the first
uncovered unit above that one is. -/
theorem Coalesced.head_le {e f : Extent} {l₁ l₂ : List Extent} (h₁ : Coalesced (e :: l₁))
    (h₂ : Coalesced (f :: l₂)) (h : ∀ x, cover (e :: l₁) x = cover (f :: l₂) x) :
    f.base ≤ e.base ∧ (e.base = f.base → e.stop ≤ f.stop) := by
  obtain ⟨hepos, hegap, -⟩ := coalesced_cons.mp h₁
  obtain ⟨hfpos, hfgap, -⟩ := coalesced_cons.mp h₂
  constructor
  · have he : 0 < cover (f :: l₂) e.base := by
      rw [← h]
      exact cover_pos_of_mem List.mem_cons_self (by simp only [Extent.mem_def]; omega)
    obtain ⟨g, hg, hx⟩ := cover_pos.mp he
    rcases List.mem_cons.mp hg with rfl | hg
    · exact hx.1
    · have := hfgap g hg
      simp only [Extent.mem_def, Extent.stop] at hx this
      omega
  · intro hbase
    by_contra hlt
    -- The unit just above `f` is inside `e`, but `f :: l₂` does not cover it.
    have hstop := h₂.cover_stop (e := f) List.mem_cons_self
    rw [← h] at hstop
    refine notMem_of_cover_eq_zero hstop List.mem_cons_self ?_
    simp only [Extent.mem_def, Extent.stop] at hlt ⊢
    omega

/-- Two coalesced lists that cover the same units start with the same extent. -/
theorem Coalesced.head_eq {e f : Extent} {l₁ l₂ : List Extent} (h₁ : Coalesced (e :: l₁))
    (h₂ : Coalesced (f :: l₂)) (h : ∀ x, cover (e :: l₁) x = cover (f :: l₂) x) : e = f := by
  obtain ⟨hb₁, hs₁⟩ := Coalesced.head_le h₁ h₂ h
  obtain ⟨hb₂, hs₂⟩ := Coalesced.head_le h₂ h₁ fun x => (h x).symm
  have hbase : e.base = f.base := by omega
  have hstop : e.stop = f.stop := Nat.le_antisymm (hs₁ hbase) (hs₂ hbase.symm)
  cases e
  cases f
  simp only [Extent.stop, Extent.mk.injEq] at hbase hstop ⊢
  omega

/-- The normal form is unique: two coalesced lists that cover the same units are equal. -/
theorem Coalesced.ext {l₁ l₂ : List Extent} (h₁ : Coalesced l₁) (h₂ : Coalesced l₂)
    (h : ∀ x, cover l₁ x = cover l₂ x) : l₁ = l₂ := by
  induction l₁ generalizing l₂ with
  | nil =>
      cases l₂ with
      | nil => rfl
      | cons f l₂ =>
          have hpos := (coalesced_cons.mp h₂).1
          have hf := h f.base
          rw [cover_cons, if_pos (by simp only [Extent.mem_def]; omega), cover_nil] at hf
          omega
  | cons e l₁ ih =>
      cases l₂ with
      | nil =>
          have hpos := (coalesced_cons.mp h₁).1
          have he := h e.base
          rw [cover_cons, if_pos (by simp only [Extent.mem_def]; omega), cover_nil] at he
          omega
      | cons f l₂ =>
          have hef : e = f := Coalesced.head_eq h₁ h₂ h
          subst hef
          rw [ih (coalesced_cons.mp h₁).2.2 (coalesced_cons.mp h₂).2.2 fun x => by
            have := h x
            simp only [cover_cons] at this
            omega]

/-- The front part taken off one extent keeps the normal form. -/
theorem Coalesced.dropFront {l₁ l₂ : List Extent} {e : Extent}
    (h : Coalesced (l₁ ++ e :: l₂)) {n : Nat} (hn : n ≤ e.len) :
    Coalesced (l₁ ++ e.dropFront n ++ l₂) := by
  unfold Extent.dropFront
  split
  · refine h.sublist ?_
    simp
  · rename_i hne
    obtain ⟨hpos, hgap⟩ := h
    obtain ⟨hg₁, hg₂, hg₁₂⟩ := List.pairwise_append.mp hgap
    obtain ⟨hge, hg₂⟩ := List.pairwise_cons.mp hg₂
    rw [List.append_assoc, List.singleton_append]
    refine ⟨?_, List.pairwise_append.mpr ⟨hg₁, List.pairwise_cons.mpr ⟨?_, hg₂⟩, ?_⟩⟩
    · intro f hf
      rcases List.mem_append.mp hf with hf | hf
      · exact hpos f (List.mem_append_left _ hf)
      · rcases List.mem_cons.mp hf with rfl | hf
        · exact Nat.sub_pos_of_lt (by omega)
        · exact hpos f (by simp [hf])
    · intro f hf
      have := hge f hf
      simp only [Extent.stop] at this ⊢
      omega
    · intro f hf g hg
      rcases List.mem_cons.mp hg with rfl | hg
      · have := hg₁₂ f hf e List.mem_cons_self
        simp only
        omega
      · exact hg₁₂ f hf g (List.mem_cons_of_mem e hg)

/-- Taking from the front of an extent that ends at or below `b` keeps the extents from `b`
on. -/
theorem filter_dropFront {l₁ l₂ : List Extent} {e : Extent} {n b : Nat} (hpos : 0 < e.len)
    (hn : n ≤ e.len) (hstop : e.stop ≤ b) :
    (l₁ ++ e.dropFront n ++ l₂).filter (fun f => b ≤ f.base)
      = (l₁ ++ e :: l₂).filter fun f => b ≤ f.base := by
  have hbase : ¬ b ≤ e.base := by
    simp only [Extent.stop] at hstop
    omega
  -- What is left starts inside the extent.
  have hrest : (e.dropFront n).filter (fun f => b ≤ f.base) = [] := by
    rw [Extent.dropFront]
    split_ifs
    · rfl
    · refine List.filter_eq_nil_iff.mpr ?_
      intro f hf
      rw [List.mem_singleton.mp hf, decide_eq_true_eq, Nat.not_le]
      simp only [Extent.stop] at hstop ⊢
      omega
  rw [List.filter_append, List.filter_append, List.filter_append, hrest,
    List.filter_cons_of_neg (by simpa using hbase), List.append_nil]

/-- When nothing covers the unit below `n`, no extent crosses `n`, and the extents that start below
`n` are what the list covers there. -/
theorem cover_filter_lt {l : List Extent} {n : Nat} (h : ∀ y, y + 1 = n → cover l y = 0) (x : Nat) :
    cover (l.filter fun e => e.base < n) x = if x < n then cover l x else 0 := by
  induction l with
  | nil => simp
  | cons e l ih =>
      have hrest : ∀ y, y + 1 = n → cover l y = 0 := by
        intro y hy
        have := h y hy
        rw [cover_cons] at this
        omega
      rw [cover_cons]
      by_cases he : e.base < n
      · rw [List.filter_cons_of_pos (by simpa using he), cover_cons, ih hrest]
        by_cases hx : x < n
        · rw [if_pos hx, if_pos hx]
        · -- Otherwise the extent would contain the unit below `n`.
          have hout := stop_le_of_cover_eq_zero (h (n - 1) (by omega)) List.mem_cons_self
            (show e.base ≤ n - 1 by omega)
          have hmem : x ∉ e := by
            simp only [Extent.mem_def, Extent.stop] at hout ⊢
            omega
          rw [if_neg hmem, if_neg hx, if_neg hx]
      · rw [List.filter_cons_of_neg (by simpa using he), ih hrest]
        by_cases hx : x < n
        · have hmem : x ∉ e := by
            rw [Extent.mem_def]
            omega
          rw [if_pos hx, if_pos hx, if_neg hmem, Nat.zero_add]
        · rw [if_neg hx, if_neg hx]

/-! ### Adding an extent -/

/-- `e` in front of the list, merged with the first extent when it touches it. -/
def glue (e : Extent) : List Extent → List Extent
  | [] => [e]
  | f :: l => if e.Touches f then e.append f :: l else e :: f :: l

/-- `e` at its place in the ascending list, merged with the neighbours that it touches. -/
def insertExtent (e : Extent) : List Extent → List Extent
  | [] => [e]
  | f :: l => if e.base ≤ f.base then glue e (f :: l) else glue f (insertExtent e l)

/-- To glue an extent to the first one of a list changes no unit, whether the two touch or not. -/
theorem cover_glue (e : Extent) (l : List Extent) (x : Nat) :
    cover (glue e l) x = cover (e :: l) x := by
  cases l with
  | nil => rfl
  | cons f l =>
      rw [glue]
      split
      · rename_i htouch
        simp only [cover_cons, Extent.mem_def, Extent.append]
        simp only [Extent.Touches, Extent.stop] at htouch
        split_ifs <;> omega
      · rfl

/-- An insertion adds the units of the extent, wherever its place is and whatever it is glued to. -/
theorem cover_insertExtent (e : Extent) (l : List Extent) (x : Nat) :
    cover (insertExtent e l) x = cover (e :: l) x := by
  induction l with
  | nil => rfl
  | cons f l ih =>
      unfold insertExtent
      split
      · exact cover_glue e (f :: l) x
      · rw [cover_glue, cover_cons f, ih, cover_cons e, cover_cons e, cover_cons f]
        omega

/-- Gluing keeps the normal form when `e` ends before the list starts. -/
theorem coalesced_glue {e : Extent} {l : List Extent} (hl : Coalesced l) (he : 0 < e.len)
    (hle : ∀ f ∈ l, e.stop ≤ f.base) : Coalesced (glue e l) := by
  cases l with
  | nil => exact coalesced_cons.mpr ⟨he, by simp, hl⟩
  | cons f l =>
      obtain ⟨hfpos, hfgap, hl'⟩ := coalesced_cons.mp hl
      rw [glue]
      split
      · rename_i htouch
        refine coalesced_cons.mpr ⟨Nat.add_pos_left he _, ?_, hl'⟩
        intro g hg
        have := hfgap g hg
        simp only [Extent.Touches, Extent.append, Extent.stop] at htouch this ⊢
        omega
      · rename_i htouch
        have hef : e.stop < f.base :=
          Nat.lt_of_le_of_ne (hle f List.mem_cons_self) htouch
        refine coalesced_cons.mpr ⟨he, List.forall_mem_cons.mpr ⟨hef, ?_⟩, hl⟩
        intro g hg
        have := hfgap g hg
        simp only [Extent.stop] at this hef ⊢
        omega

/-- An insertion in front makes the list longer by one at most. -/
theorem length_glue_le (e : Extent) (l : List Extent) : (glue e l).length ≤ l.length + 1 := by
  cases l with
  | nil => exact le_refl _
  | cons f l =>
      rw [glue]
      split
      · exact Nat.le_succ _
      · exact le_refl _

/-- An insertion adds at most one extent to the list. -/
theorem length_insertExtent_le (e : Extent) (l : List Extent) :
    (insertExtent e l).length ≤ l.length + 1 := by
  induction l with
  | nil => exact le_refl _
  | cons f l ih =>
      unfold insertExtent
      split
      · exact length_glue_le e (f :: l)
      · exact (length_glue_le f _).trans (Nat.succ_le_succ ih)

/-- A lower bound on the bases survives an insertion. -/
theorem le_base_of_mem_insertExtent {e g : Extent} {l : List Extent} {b : Nat}
    (he : b ≤ e.base) (hl : ∀ f ∈ l, b ≤ f.base) (hg : g ∈ insertExtent e l) : b ≤ g.base := by
  have hglue : ∀ (e : Extent) (l : List Extent), b ≤ e.base → (∀ f ∈ l, b ≤ f.base) →
      ∀ g ∈ glue e l, b ≤ g.base := by
    intro e l he hl g hg
    cases l with
    | nil =>
        rw [List.mem_singleton.mp hg]
        exact he
    | cons f l =>
        rw [glue] at hg
        split at hg
        · rcases List.mem_cons.mp hg with rfl | hg
          · exact he
          · exact hl g (List.mem_cons_of_mem f hg)
        · rcases List.mem_cons.mp hg with rfl | hg
          · exact he
          · exact hl g hg
  induction l generalizing g with
  | nil =>
      rw [List.mem_singleton.mp hg]
      exact he
  | cons f l ih =>
      unfold insertExtent at hg
      split at hg
      · exact hglue e (f :: l) he hl g hg
      · exact hglue f _ (hl f List.mem_cons_self)
          (fun k hk => ih (fun f' hf' => hl f' (List.mem_cons_of_mem f hf')) hk) g hg

/-- Inserting an extent that is disjoint from the list keeps the normal form. -/
theorem coalesced_insertExtent {e : Extent} {l : List Extent} (hl : Coalesced l)
    (he : 0 < e.len) (hdisj : ∀ x ∈ e, cover l x = 0) : Coalesced (insertExtent e l) := by
  induction l with
  | nil => exact coalesced_cons.mpr ⟨he, by simp, coalesced_nil⟩
  | cons f l ih =>
      obtain ⟨hfpos, hfgap, hl'⟩ := coalesced_cons.mp hl
      have hf : ∀ x ∈ e, x ∉ f := fun x hx =>
        notMem_of_cover_eq_zero (hdisj x hx) List.mem_cons_self
      have hfe := hf e.base (by simp only [Extent.mem_def]; omega)
      have hef : f.base ∉ e := fun h => hf f.base h (by simp only [Extent.mem_def]; omega)
      unfold insertExtent
      split
      · rename_i hbase
        have hstop : e.stop ≤ f.base := by
          simp only [Extent.mem_def, Extent.stop] at hef ⊢
          omega
        refine coalesced_glue hl he (List.forall_mem_cons.mpr ⟨hstop, ?_⟩)
        intro g hg
        have := hfgap g hg
        simp only [Extent.stop] at this hstop ⊢
        omega
      · rename_i hbase
        have hstop : f.stop ≤ e.base := by
          simp only [Extent.mem_def, Extent.stop] at hfe ⊢
          omega
        have hcoal := ih hl' fun x hx => by
          have := hdisj x hx
          rw [cover_cons] at this
          omega
        exact coalesced_glue hcoal hfpos fun g hg =>
          le_base_of_mem_insertExtent hstop (fun k hk => (hfgap k hk).le) hg

/-- Nothing is merged in front of a list that starts further up. -/
theorem glue_of_lt {e : Extent} {l : List Extent} (h : ∀ f ∈ l, e.stop < f.base) :
    glue e l = e :: l := by
  cases l with
  | nil => rfl
  | cons f l =>
      have hne : ¬ e.Touches f := (h f List.mem_cons_self).ne
      rw [glue, if_neg hne]

/-- It does not matter which two of three neighbours are glued first. -/
theorem Extent.append_assoc (e f g : Extent) :
    (e.append f).append g = e.append (f.append g) := by
  simp only [Extent.append, Nat.add_assoc]

/-- The end of two extents in a row is the end of the second one. -/
theorem Extent.touches_append {e f g : Extent} (h : e.Touches f) :
    (e.append f).Touches g ↔ f.Touches g := by
  simp only [Extent.Touches, Extent.stop, Extent.append] at h ⊢
  omega

/-- Gluing twice: the extent in the middle may merge first with either side. -/
theorem glue_glue (e f : Extent) (l : List Extent) :
    glue e (glue f l) = if e.Touches f then glue (e.append f) l else e :: glue f l := by
  cases l with
  | nil => rfl
  | cons g l =>
      by_cases hfg : f.Touches g
      · have hbase : e.Touches (f.append g) ↔ e.Touches f := Iff.rfl
        by_cases hef : e.Touches f
        · simp only [glue, if_pos hfg, if_pos hef, if_pos (hbase.mpr hef),
            if_pos ((Extent.touches_append hef).mpr hfg), Extent.append_assoc]
        · simp only [glue, if_pos hfg, if_neg hef, if_neg (hbase.not.mpr hef)]
      · by_cases hef : e.Touches f
        · simp only [glue, if_neg hfg, if_pos hef,
            if_neg ((Extent.touches_append hef).not.mpr hfg)]
        · simp only [glue, if_neg hfg, if_neg hef]

/-- Where the extents below `e` end, the insertion happens: only the last one of them can
merge with `e`. -/
theorem insertExtent_append {e p : Extent} {l₁ l₂ : List Extent}
    (h : Coalesced (l₁ ++ p :: l₂)) (hp : p.base < e.base)
    (h₂ : ∀ f ∈ l₂.head?, e.base ≤ f.base) :
    insertExtent e (l₁ ++ p :: l₂) = l₁ ++ glue p (glue e l₂) := by
  induction l₁ with
  | nil =>
      rw [List.nil_append, List.nil_append, insertExtent, if_neg (Nat.not_le.mpr hp)]
      cases l₂ with
      | nil => rfl
      | cons f l₂ => rw [insertExtent, if_pos (h₂ f rfl)]
  | cons a l₁ ih =>
      obtain ⟨hapos, hagap, hl⟩ := coalesced_cons.mp h
      have hap := hagap p (by simp)
      rw [List.cons_append, insertExtent, if_neg (by simp only [Extent.stop] at hap; omega),
        ih hl, glue_of_lt, List.cons_append]
      rw [← ih hl]
      exact fun g hg => le_base_of_mem_insertExtent (b := a.stop + 1) (by omega) hagap hg

end Soi.Lib
