import Soi.Pamiec.Alloc
import Soi.Proofs.Pamiec.HoleTable

/-!
# `Soi.Proofs.Pamiec.Placement`: which hole the scans pick

The three scans of the hole list, on a table whose hole list visits `hs`. A pick splits the
list at the hole picked, and comes with the predecessor that `del_slot` needs:

* `firstFit_loop`: the first hole below the swap boundary that is big enough;
* `worstFit_cons`: the first of the biggest holes below the swap boundary, or the first hole of
  all when it is at or above the boundary;
* `findSwapHole_loop`: the first hole at or above the boundary that is big enough.

`fit_spec` joins the two modes of `alloc_mem`.
-/

set_option autoImplicit false

namespace Soi.Pamiec

open Soi.Lib

namespace HoleTable

variable {n : Nat} {t : HoleTable n} (swapBase clicks : UInt32)

/-- One more step of a walk: the last entry passed is the predecessor. -/
theorem getLast?_or_cons (a : Fin n) (l : List (Fin n)) (prev : Option (Fin n)) :
    l.getLast?.or (some a) = (a :: l).getLast?.or prev := by
  rw [List.getLast?_cons]
  cases l.getLast? <;> rfl

/-- The first-fit loop from `hp` on: it returns the first hole that is big enough, all holes
up to there being below the boundary, or it passes holes that are too small up to the boundary
or the end. -/
theorem firstFit_loop {l : List (Fin n)} {hp : Option (Fin n)} {fuel : Nat}
    (prevPtr : Option (Fin n)) (hseg : Seg t.next hp l none) (hfuel : l.length ≤ fuel) :
    (∃ l₁ i l₂, l = l₁ ++ i :: l₂ ∧
        t.firstFit swapBase clicks fuel prevPtr hp = .ok (some (l₁.getLast?.or prevPtr, i)) ∧
        (t.hole i).hBase < swapBase ∧ clicks ≤ (t.hole i).hLen ∧
        ∀ a ∈ l₁, (t.hole a).hBase < swapBase ∧ (t.hole a).hLen < clicks) ∨
      (∃ l₁ l₂, l = l₁ ++ l₂ ∧ t.firstFit swapBase clicks fuel prevPtr hp = .ok none ∧
        (∀ a ∈ l₁, (t.hole a).hLen < clicks) ∧ ∀ a ∈ l₂.head?, swapBase ≤ (t.hole a).hBase) := by
  -- Induction on the holes still ahead, with the last hole passed as a parameter.
  induction l generalizing hp prevPtr fuel with
  | nil =>
      have hp : hp = none := hseg
      subst hp
      exact Or.inr ⟨[], [], rfl, by cases fuel <;> rfl, by simp, by simp⟩
  | cons a l ih =>
      obtain ⟨rfl, hseg⟩ := hseg
      cases fuel with
      | zero => simp at hfuel
      | succ fuel =>
          by_cases hbase : (t.hole a).hBase < swapBase
          · by_cases hlen : clicks ≤ (t.hole a).hLen
            · refine Or.inl ⟨[], a, l, rfl, ?_, hbase, hlen, by simp⟩
              rw [firstFit, if_pos hbase, if_pos hlen]
              rfl
            · -- Too small: the scan goes on with `a` as the predecessor.
              have hstep : t.firstFit swapBase clicks (fuel + 1) prevPtr (some a)
                  = t.firstFit swapBase clicks fuel (some a) (t.next a) := by
                rw [firstFit, if_pos hbase, if_neg hlen]
                rfl
              have hsmall : (t.hole a).hLen < clicks := UInt32.not_le.mp hlen
              rw [hstep]
              rcases ih (some a) hseg (by simpa using hfuel) with
                ⟨l₁, i, l₂, rfl, hrun, hi, hilen, hall⟩ | ⟨l₁, l₂, rfl, hrun, hall, hstop⟩
              · refine Or.inl ⟨a :: l₁, i, l₂, rfl, ?_, hi, hilen,
                  List.forall_mem_cons.mpr ⟨⟨hbase, hsmall⟩, hall⟩⟩
                rw [hrun, getLast?_or_cons]
              · exact Or.inr ⟨a :: l₁, l₂, rfl, hrun,
                  List.forall_mem_cons.mpr ⟨hsmall, hall⟩, hstop⟩
          · -- At the boundary the scan gives up, whatever comes behind.
            refine Or.inr ⟨[], a :: l, rfl, ?_, by simp, ?_⟩
            · rw [firstFit, if_neg hbase]
              rfl
            · intro b hb
              rw [← Option.some.inj hb]
              exact UInt32.not_lt.mp hbase

/-- The worst-fit loop from `hp` on, after `d₁ ++ maxHole :: d₂`: the hole it returns is
bigger than the ones before it and at least as big as the ones after it up to the boundary. -/
theorem worstFit_loop (d₁ : List (Fin n)) (maxHole : Fin n) (d₂ : List (Fin n))
    {l : List (Fin n)} {hp : Option (Fin n)} {fuel : Nat} (hseg : Seg t.next hp l none)
    (hfuel : l.length ≤ fuel)
    (h₁ : ∀ a ∈ d₁, (t.hole a).hLen < (t.hole maxHole).hLen)
    (h₂ : ∀ a ∈ d₂, (t.hole a).hLen ≤ (t.hole maxHole).hLen) :
    ∃ l₁ l₂ e₁ i e₂, l = l₁ ++ l₂ ∧ d₁ ++ maxHole :: d₂ ++ l₁ = e₁ ++ i :: e₂ ∧
      t.worstFitLoop swapBase fuel (d₁ ++ maxHole :: d₂).getLast? hp d₁.getLast? maxHole
        = .ok (e₁.getLast?, i) ∧
      (∀ a ∈ e₁, (t.hole a).hLen < (t.hole i).hLen) ∧
      (∀ a ∈ e₂, (t.hole a).hLen ≤ (t.hole i).hLen) ∧
      (∀ a ∈ l₁, (t.hole a).hBase < swapBase) ∧
      ∀ a ∈ l₂.head?, swapBase ≤ (t.hole a).hBase := by
  -- Induction on the holes still ahead. The holes passed are split at the maximum so far.
  induction l generalizing d₁ d₂ maxHole hp fuel with
  | nil =>
      have hp : hp = none := hseg
      subst hp
      exact ⟨[], [], d₁, maxHole, d₂, rfl, by simp, by cases fuel <;> rfl, h₁, h₂,
        by simp, by simp⟩
  | cons a l ih =>
      obtain ⟨rfl, hseg⟩ := hseg
      cases fuel with
      | zero => simp at hfuel
      | succ fuel =>
          have hfuel : l.length ≤ fuel := by simpa using hfuel
          by_cases hbase : (t.hole a).hBase < swapBase
          · by_cases hlen : (t.hole maxHole).hLen < (t.hole a).hLen
            · -- `a` is the biggest hole so far, and `prevPtr` is its predecessor.
              have hsmaller : ∀ b ∈ d₁ ++ maxHole :: d₂, (t.hole b).hLen < (t.hole a).hLen := by
                intro b hb
                rcases List.mem_append.mp hb with hb | hb
                · exact UInt32.lt_trans (h₁ b hb) hlen
                · rcases List.mem_cons.mp hb with rfl | hb
                  · exact hlen
                  · exact UInt32.lt_of_le_of_lt (h₂ b hb) hlen
              obtain ⟨l₁, l₂, e₁, i, e₂, rfl, hsplit, hrun, he₁, he₂, hlow, hstop⟩ :=
                ih _ _ [] hseg hfuel hsmaller (by simp)
              refine ⟨a :: l₁, l₂, e₁, i, e₂, rfl, by simpa using hsplit, ?_, he₁, he₂,
                List.forall_mem_cons.mpr ⟨hbase, hlow⟩, hstop⟩
              rw [List.getLast?_concat] at hrun
              rw [worstFitLoop, if_pos hbase, if_pos hlen]
              exact hrun
            · -- An equal or smaller hole does not replace the maximum.
              have hle : (t.hole a).hLen ≤ (t.hole maxHole).hLen := UInt32.not_lt.mp hlen
              obtain ⟨l₁, l₂, e₁, i, e₂, rfl, hsplit, hrun, he₁, he₂, hlow, hstop⟩ :=
                ih _ _ (d₂ ++ [a]) hseg hfuel h₁
                  (by simpa [or_imp, forall_and] using ⟨h₂, hle⟩)
              refine ⟨a :: l₁, l₂, e₁, i, e₂, rfl, by simpa using hsplit, ?_, he₁, he₂,
                List.forall_mem_cons.mpr ⟨hbase, hlow⟩, hstop⟩
              rw [← List.cons_append, ← List.append_assoc, List.getLast?_concat] at hrun
              rw [worstFitLoop, if_pos hbase, if_neg hlen]
              exact hrun
          · -- At the boundary the scan ends with the maximum so far.
            refine ⟨[], a :: l, d₁, maxHole, d₂, rfl, by simp, ?_, h₁, h₂, by simp, ?_⟩
            · rw [worstFitLoop, if_neg hbase]
              rfl
            · intro b hb
              rw [← Option.some.inj hb]
              exact UInt32.not_lt.mp hbase

/-- The hole that the worst-fit branch looks at in the end: it is the first of the biggest
holes below the boundary, or the first hole of all when that one is not below. -/
theorem worstFit_cons {a : Fin n} {l fs : List (Fin n)} (h : t.Slots (a :: l) fs) :
    ∃ l₁ i l₂ rest, a :: l = l₁ ++ i :: l₂ ++ rest ∧
      t.worstFit swapBase clicks =
        .ok (if clicks ≤ (t.hole i).hLen then some (l₁.getLast?, i) else none) ∧
      (∀ b ∈ l₁, (t.hole b).hLen < (t.hole i).hLen) ∧
      (∀ b ∈ l₂, (t.hole b).hLen ≤ (t.hole i).hLen) ∧
      ((∀ b ∈ l₁ ++ i :: l₂, (t.hole b).hBase < swapBase) ∧
          (∀ b ∈ rest.head?, swapBase ≤ (t.hole b).hBase) ∨
        l₁ = [] ∧ l₂ = [] ∧ swapBase ≤ (t.hole i).hBase) := by
  have hfuel := h.length_le
  obtain ⟨hhead, hseg⟩ := h.holes
  cases n with
  | zero => exact a.elim0
  | succ n =>
      by_cases hbase : (t.hole a).hBase < swapBase
      · -- The first round compares the first hole with itself, and the loop runs on from the
        -- second.
        obtain ⟨l₁, rest, e₁, i, e₂, rfl, hsplit, hrun, he₁, he₂, hlow, hstop⟩ :=
          worstFit_loop swapBase [] a [] hseg (by simpa using hfuel : l.length ≤ n)
            (by simp) (by simp)
        refine ⟨e₁, i, e₂, rest, ?_, ?_, he₁, he₂, Or.inl ⟨?_, hstop⟩⟩
        · rw [← hsplit]
          simp
        · rw [worstFit, hhead]
          simp only
          rw [worstFitLoop, if_pos hbase, if_neg (UInt32.lt_irrefl _)]
          have hrun : t.worstFitLoop swapBase n (some a) (t.hole a).hNext none a
              = .ok (e₁.getLast?, i) := hrun
          rw [hrun]
          simp only [bind, Except.bind]
          split_ifs <;> rfl
        · rw [← hsplit]
          simpa using ⟨hbase, hlow⟩
      · -- The first hole is not below the boundary. The loop ends at once, but the hole is the
        -- maximum already, and nothing compares its address.
        refine ⟨[], a, [], l, rfl, ?_, by simp, by simp,
          Or.inr ⟨rfl, rfl, UInt32.not_lt.mp hbase⟩⟩
        rw [worstFit, hhead]
        simp only
        rw [worstFitLoop, if_neg hbase]
        simp only [bind, Except.bind, pure, Except.pure]
        split_ifs <;> rfl

/-- The loop of `swap_out` over the holes from `hp` on. -/
theorem findSwapHole_loop (size : UInt32) {l : List (Fin n)} {hp : Option (Fin n)}
    {fuel : Nat} (prevPtr : Option (Fin n)) (hseg : Seg t.next hp l none)
    (hfuel : l.length ≤ fuel) :
    (∃ l₁ i l₂, l = l₁ ++ i :: l₂ ∧
        t.findSwapHole swapBase size fuel prevPtr hp = .ok (some (l₁.getLast?.or prevPtr, i)) ∧
        swapBase ≤ (t.hole i).hBase ∧ size ≤ (t.hole i).hLen) ∨
      (t.findSwapHole swapBase size fuel prevPtr hp = .ok none ∧
        ∀ a ∈ l, swapBase ≤ (t.hole a).hBase → (t.hole a).hLen < size) := by
  -- Unlike first fit, this scan starts at the front of the whole list and skips what is below the
  -- boundary.
  induction l generalizing hp prevPtr fuel with
  | nil =>
      have hp : hp = none := hseg
      subst hp
      exact Or.inr ⟨by cases fuel <;> rfl, by simp⟩
  | cons a l ih =>
      obtain ⟨rfl, hseg⟩ := hseg
      cases fuel with
      | zero => simp at hfuel
      | succ fuel =>
          by_cases hfit : swapBase ≤ (t.hole a).hBase ∧ size ≤ (t.hole a).hLen
          · refine Or.inl ⟨[], a, l, rfl, ?_, hfit⟩
            rw [findSwapHole, if_pos hfit]
            rfl
          · have hstep : t.findSwapHole swapBase size (fuel + 1) prevPtr (some a)
                = t.findSwapHole swapBase size fuel (some a) (t.next a) := by
              rw [findSwapHole, if_neg hfit]
              rfl
            rw [hstep]
            rcases ih (some a) hseg (by simpa using hfuel) with
              ⟨l₁, i, l₂, rfl, hrun, hi⟩ | ⟨hrun, hall⟩
            · refine Or.inl ⟨a :: l₁, i, l₂, rfl, ?_, hi⟩
              rw [hrun, getLast?_or_cons]
            · refine Or.inr ⟨hrun, List.forall_mem_cons.mpr ⟨?_, hall⟩⟩
              intro hb
              exact UInt32.not_le.mp fun hs => hfit ⟨hb, hs⟩

end HoleTable

section
variable [MmConfig] {mm : Mm} {hs fs : List (Fin nrHoles)}

/-- One pass over the hole list in either mode. It finds a hole that is big enough, below the
swap boundary unless worst fit looked at nothing but a first hole above it, or no hole below
the boundary is big enough. -/
theorem Mm.fit_spec (clicks : UInt32) (h : mm.table.Slots hs fs)
    (hm : Coalesced (mm.table.extents hs)) :
    (∃ prevPtr l₁ i l₂, hs = l₁ ++ i :: l₂ ∧ mm.fit clicks = .ok (some (prevPtr, i)) ∧
        (∀ a ∈ l₁.getLast?, prevPtr = some a) ∧ clicks ≤ (mm.table.hole i).hLen ∧
        ((mm.table.hole i).hBase < mm.swapBase ∨
          mm.worstFit ≠ 0 ∧ l₁ = [] ∧ mm.swapBase ≤ (mm.table.hole i).hBase)) ∨
      (mm.fit clicks = .ok none ∧
        ∀ a ∈ hs, (mm.table.hole a).hBase < mm.swapBase → (mm.table.hole a).hLen < clicks) := by
  -- Behind a hole at or above the boundary there is none below it.
  have habove : ∀ l₁ l₂, hs = l₁ ++ l₂ →
      (∀ a ∈ l₂.head?, mm.swapBase ≤ (mm.table.hole a).hBase) →
      ∀ a ∈ l₂, mm.swapBase ≤ (mm.table.hole a).hBase := by
    rintro l₁ l₂ rfl hhead a ha
    cases l₂ with
    | nil => simp at ha
    | cons b l₂ =>
        have hb := hhead b rfl
        rcases List.mem_cons.mp ha with rfl | ha
        · exact hb
        · have hgap : (mm.table.extents (b :: l₂)).Pairwise fun e f => e.stop < f.base :=
            (hm.sublist (by simp)).gap
          have hlt := (List.pairwise_cons.mp hgap).1 _ (List.mem_map_of_mem ha)
          simp only [Extent.stop, HoleTable.extent] at hlt
          rw [UInt32.le_iff_toNat_le] at hb ⊢
          omega
  by_cases hmode : mm.worstFit = 0
  · have hfit : mm.fit clicks
        = mm.table.firstFit mm.swapBase clicks nrHoles none mm.table.holeHead := by
      rw [Mm.fit, if_pos hmode]
    rw [hfit]
    rcases HoleTable.firstFit_loop mm.swapBase clicks none h.holes h.length_le with
      ⟨l₁, i, l₂, rfl, hrun, hi, hlen, -⟩ | ⟨l₁, l₂, rfl, hrun, hsmall, hhead⟩
    · exact Or.inl ⟨_, l₁, i, l₂, rfl, hrun, fun a ha => by simp_all, hlen, Or.inl hi⟩
    · refine Or.inr ⟨hrun, ?_⟩
      intro a ha hbase
      rcases List.mem_append.mp ha with ha | ha
      · exact hsmall a ha
      · exact absurd hbase (UInt32.not_lt.mpr (habove l₁ l₂ rfl hhead a ha))
  · have hfit : mm.fit clicks = mm.table.worstFit mm.swapBase clicks := by
      rw [Mm.fit, if_neg hmode]
    rw [hfit]
    cases hs with
    | nil =>
        refine Or.inr ⟨?_, by simp⟩
        have hnone : mm.table.holeHead = none := h.holes
        rw [HoleTable.worstFit, hnone]
        rfl
    | cons a l =>
        obtain ⟨l₁, i, l₂, rest, hsplit, hrun, h₁, h₂, hplace⟩ :=
          HoleTable.worstFit_cons mm.swapBase clicks h
        by_cases hlen : clicks ≤ (mm.table.hole i).hLen
        · rw [if_pos hlen] at hrun
          refine Or.inl ⟨_, l₁, i, l₂ ++ rest, by simpa using hsplit, hrun,
            fun b hb => hb, hlen, ?_⟩
          rcases hplace with ⟨hlow, -⟩ | ⟨hl₁, -, hi⟩
          · exact Or.inl (hlow i (by simp))
          · exact Or.inr ⟨hmode, hl₁, hi⟩
        · rw [if_neg hlen] at hrun
          have hlen := UInt32.not_le.mp hlen
          refine Or.inr ⟨hrun, ?_⟩
          intro b hb hbase
          rw [hsplit] at hb
          rcases List.mem_append.mp hb with hb | hb
          · rcases List.mem_append.mp hb with hb | hb
            · exact UInt32.lt_trans (h₁ b hb) hlen
            · rcases List.mem_cons.mp hb with rfl | hb
              · exact hlen
              · exact UInt32.lt_of_le_of_lt (h₂ b hb) hlen
          · refine absurd hbase (UInt32.not_lt.mpr ?_)
            rcases hplace with ⟨-, hhead⟩ | ⟨rfl, rfl, hi⟩
            · exact habove (l₁ ++ i :: l₂) rest hsplit hhead b hb
            · exact habove [] (i :: rest) hsplit (by simpa using hi) b (by simpa using hb)

end

end Soi.Pamiec
