import Mathlib.Data.List.Chain
import Soi.Lib.Extent

/-!
# `Soi.Lib.Tiling`: extents in a row

`Tiles a l b` says that the extents of `l` follow each other without a gap, from the unit `a` up to
the unit `b`. It is a path through the line of units, with one extent for each step. So the extents
are in order and do not overlap (`Tiles.pairwise`), and together they are the units from `a` up to
`b`, each of them once (`Tiles.cover`). When the extents have labels, the label of a unit is found
at its place (`Tiles.getElem?_expand`). A row grows at its end, with a new extent (`Tiles.concat`)
or with a longer last one (`Tiles.grow`).
-/

set_option autoImplicit false

namespace Soi.Lib

/-- The first extent starts at `a`, each of the others where the one before it stops, and the last
one stops at `b`. -/
def Tiles : Nat → List Extent → Nat → Prop
  | a, [], b => a = b
  | a, e :: l, b => e.base = a ∧ Tiles e.stop l b

section
variable {a b : Nat} {e : Extent} {l : List Extent}

/-- Tiles go up from their start to their end. -/
theorem Tiles.le (h : Tiles a l b) : a ≤ b := by
  induction l generalizing a with
  | nil => exact le_of_eq h
  | cons e l ih =>
      obtain ⟨rfl, hl⟩ := h
      exact (Nat.le_add_right _ _).trans (ih hl)

/-- The extents are between the two ends. -/
theorem Tiles.between (h : Tiles a l b) (he : e ∈ l) : a ≤ e.base ∧ e.stop ≤ b := by
  induction l generalizing a with
  | nil => cases he
  | cons f l ih =>
      obtain ⟨rfl, hl⟩ := h
      rcases List.mem_cons.mp he with rfl | he
      · exact ⟨le_rfl, hl.le⟩
      · obtain ⟨hbase, hstop⟩ := ih hl he
        exact ⟨(Nat.le_add_right _ _).trans hbase, hstop⟩

/-- Each extent stops before the next ones start. -/
theorem Tiles.pairwise (h : Tiles a l b) : l.Pairwise fun e f => e.stop ≤ f.base := by
  induction l generalizing a with
  | nil => exact List.Pairwise.nil
  | cons e l ih =>
      obtain ⟨-, hl⟩ := h
      exact List.pairwise_cons.mpr ⟨fun f hf => (hl.between hf).1, ih hl⟩

/-- Each unit from `a` up to `b` is in one extent, and there are no others. -/
theorem Tiles.cover (h : Tiles a l b) (x : Nat) :
    cover l x = if a ≤ x ∧ x < b then 1 else 0 := by
  induction l generalizing a with
  | nil =>
      have hab : a = b := h
      rw [cover_nil, if_neg (by omega)]
  | cons e l ih =>
      obtain ⟨rfl, hl⟩ := h
      have hstop : e.base ≤ e.stop := Nat.le_add_right _ _
      have hle := hl.le
      rw [cover_cons, ih hl]
      by_cases hx : e.stop ≤ x
      · -- The unit is behind the first extent.
        have hout : x ∉ e := fun hmem => absurd hmem.2 (Nat.not_lt.mpr hx)
        rw [if_neg hout, Nat.zero_add]
        exact if_congr (by omega) rfl rfl
      · have hmem : x ∈ e ↔ e.base ≤ x ∧ x < b := by
          show e.base ≤ x ∧ x < e.stop ↔ e.base ≤ x ∧ x < b
          omega
        have hout : ¬ (e.stop ≤ x ∧ x < b) := fun h => hx h.1
        rw [if_neg hout, Nat.add_zero]
        exact if_congr hmem rfl rfl

/-- Each tile starts where the one before it ends. -/
theorem Tiles.isChain (h : Tiles a l b) : l.IsChain Extent.Touches := by
  induction l generalizing a with
  | nil => exact List.IsChain.nil
  | cons e l ih =>
      obtain ⟨-, hl⟩ := h
      refine List.isChain_cons.mpr ⟨?_, ih hl⟩
      intro f hf
      cases l with
      | nil => cases hf
      | cons g l =>
          obtain rfl : g = f := Option.some.inj hf
          exact hl.1.symm

/-- The label of the extent of a unit is at the place of the unit, when each extent of a row is
expanded to one label for each unit. -/
theorem Tiles.getElem?_expand {ι α : Type*} {ext : ι → Extent} {label : ι → α} {rows : List ι}
    {r : ι} {x : Nat} (h : Tiles a (rows.map ext) b) (hr : r ∈ rows) (hx : x ∈ ext r) :
    (rows.flatMap fun r => List.replicate (ext r).len (label r))[x - a]? = some (label r) := by
  induction rows generalizing a with
  | nil => cases hr
  | cons s rows ih =>
      obtain ⟨rfl, hrows⟩ := h
      rw [List.flatMap_cons]
      rcases List.mem_cons.mp hr with rfl | hr
      · have hlt : x - (ext r).base < (ext r).len := by
          rw [Extent.mem_def] at hx
          omega
        rw [List.getElem?_append_left (by rw [List.length_replicate]; exact hlt),
          List.getElem?_replicate, if_pos hlt]
      · -- The unit is behind the first extent.
        have hstop : (ext s).stop ≤ x := (hrows.between (List.mem_map_of_mem hr)).1.trans hx.1
        rw [← ih hrows hr]
        rw [Extent.stop] at hstop ⊢
        rw [List.getElem?_append_right (by rw [List.length_replicate]; omega),
          List.length_replicate, Nat.sub_sub]

/-! ### The end of a row -/

/-- Tiles in two parts meet at some unit. -/
theorem tiles_append {l₁ l₂ : List Extent} :
    Tiles a (l₁ ++ l₂) b ↔ ∃ c, Tiles a l₁ c ∧ Tiles c l₂ b := by
  induction l₁ generalizing a with
  | nil =>
      constructor
      · intro h
        exact ⟨a, rfl, h⟩
      · rintro ⟨c, rfl, h⟩
        exact h
  | cons e l ih =>
      rw [List.cons_append, Tiles, ih]
      constructor
      · rintro ⟨hbase, c, hl, hrest⟩
        exact ⟨c, ⟨hbase, hl⟩, hrest⟩
      · rintro ⟨c, ⟨hbase, hl⟩, hrest⟩
        exact ⟨hbase, c, hl, hrest⟩

/-- The last extent stops where the row stops. -/
theorem Tiles.stop_eq (h : Tiles a (l ++ [e]) b) : e.stop = b := by
  obtain ⟨c, -, -, hstop⟩ := tiles_append.mp h
  exact hstop

/-- One more tile, from the end on. -/
theorem Tiles.concat (h : Tiles a l b) (m : Nat) : Tiles a (l ++ [⟨b, m⟩]) (b + m) :=
  tiles_append.mpr ⟨b, h, rfl, rfl⟩

/-- The last tile gets one unit more. -/
theorem Tiles.grow {c m : Nat} (h : Tiles a (l ++ [⟨c, m⟩]) b) :
    Tiles a (l ++ [⟨c, m + 1⟩]) (b + 1) := by
  obtain ⟨d, hl, hbase, hstop⟩ := tiles_append.mp h
  refine tiles_append.mpr ⟨d, hl, hbase, ?_⟩
  show c + (m + 1) = b + 1
  rw [← Nat.add_assoc]
  exact congrArg (· + 1) hstop

end

end Soi.Lib
