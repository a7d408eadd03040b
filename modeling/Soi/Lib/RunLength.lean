import Mathlib.Algebra.GroupWithZero.Nat
import Mathlib.Data.List.Chain

/-!
# `Soi.Lib.RunLength`: run-length encodings

A run is a value and a number of repetitions. `Encodes rs l` says that the runs `rs` are the
run-length encoding of the list `l`: no run is empty, neighbours have different values, and expanded
they are `l`. A list has one encoding (`Encodes.unique`).

An encoder that reads `l` from the left has all runs but the last one behind it. A further element
either makes the last run longer (`Encodes.extend`) or starts a new one (`Encodes.start`).
-/

set_option autoImplicit false

namespace Soi.Lib

variable {α : Type*}

/-- The list that the runs stand for. -/
def expand (rs : List (α × Nat)) : List α := rs.flatMap fun r => List.replicate r.2 r.1

/-- The runs are the run-length encoding of the list. -/
structure Encodes (rs : List (α × Nat)) (l : List α) : Prop where
  pos : ∀ r ∈ rs, 1 ≤ r.2
  /-- Runs that are next to each other are not of the same value. -/
  maximal : rs.IsChain fun r s => r.1 ≠ s.1
  expand : expand rs = l

section
variable {rs : List (α × Nat)} {l : List α} {a b : α} {m : Nat}

/-- The expansions of two lists of runs, one after the other. -/
theorem expand_append (rs ss : List (α × Nat)) : expand (rs ++ ss) = expand rs ++ expand ss :=
  List.flatMap_append

/-- One run is its value, as often as it says. -/
theorem expand_singleton (a : α) (m : Nat) : expand [(a, m)] = List.replicate m a :=
  List.append_nil _

/-- The encoding of one element. -/
theorem encodes_singleton (a : α) : Encodes [(a, 1)] [a] where
  pos r hr := by
    rw [List.mem_singleton.mp hr]
  maximal := List.isChain_singleton _
  expand := rfl

/-- The encoding of a list of one value. -/
theorem encodes_replicate (a : α) (hm : 1 ≤ m) : Encodes [(a, m)] (List.replicate m a) where
  pos r hr := by
    rw [List.mem_singleton.mp hr]
    exact hm
  maximal := List.isChain_singleton _
  expand := expand_singleton a m

/-- One more element of the value of the last run. -/
theorem Encodes.extend (h : Encodes (rs ++ [(a, m)]) l) :
    Encodes (rs ++ [(a, m + 1)]) (l ++ [a]) := by
  obtain ⟨hrs, -, hlast⟩ := List.isChain_append.mp h.maximal
  constructor
  · intro r hr
    rcases List.mem_append.mp hr with hr | hr
    · exact h.pos r (List.mem_append_left _ hr)
    · rw [List.mem_singleton.mp hr]
      exact Nat.le_add_left 1 m
  · refine List.isChain_append.mpr ⟨hrs, List.isChain_singleton _, ?_⟩
    -- Only the value of the last run counts, and that is the same.
    intro r hr s hs
    obtain rfl := Option.some.inj hs
    exact hlast r hr (a, m) rfl
  · rw [← h.expand, expand_append, expand_append, expand_singleton, expand_singleton,
      List.replicate_succ', List.append_assoc]

/-- An element of another value. -/
theorem Encodes.start (h : Encodes (rs ++ [(a, m)]) l) (hab : a ≠ b) :
    Encodes (rs ++ [(a, m)] ++ [(b, 1)]) (l ++ [b]) := by
  constructor
  · intro r hr
    rcases List.mem_append.mp hr with hr | hr
    · exact h.pos r hr
    · rw [List.mem_singleton.mp hr]
  · rw [List.append_assoc]
    exact List.isChain_append_cons_cons.mpr ⟨h.maximal, hab, List.isChain_singleton _⟩
  · rw [expand_append, h.expand, expand_singleton]
    rfl

/-- The lengths of the runs add up to that of the list. -/
theorem Encodes.sum_eq (h : Encodes rs l) : (rs.map Prod.snd).sum = l.length := by
  rw [← h.expand, Lib.expand, List.length_flatMap]
  simp only [List.length_replicate]

/-! ### Uniqueness -/

/-- The runs behind the first one are an encoding too: they stay maximal and not empty. -/
theorem Encodes.tail (h : Encodes ((a, m) :: rs) l) : Encodes rs (Lib.expand rs) where
  pos r hr := h.pos r (List.mem_cons_of_mem _ hr)
  maximal := h.maximal.tail
  expand := rfl

/-- The list starts with the value of the first run. -/
theorem Encodes.head?_eq (h : Encodes rs l) : l.head? = rs.head?.map Prod.fst := by
  rw [← h.expand]
  cases rs with
  | nil => rfl
  | cons r rs =>
      obtain ⟨m, hm⟩ : ∃ m, r.2 = m + 1 :=
        Nat.exists_eq_add_of_le' (h.pos r List.mem_cons_self)
      rw [Lib.expand, List.flatMap_cons, hm, List.replicate_succ]
      rfl

/-- Behind the first run there is another value. -/
theorem Encodes.head?_tail_ne (h : Encodes ((a, m) :: rs) l) : (Lib.expand rs).head? ≠ some a := by
  rw [h.tail.head?_eq]
  cases rs with
  | nil => exact fun hnone => by cases hnone
  | cons r rs =>
      have hne : a ≠ r.1 := (List.isChain_cons_cons.mp h.maximal).1
      intro hsome
      exact hne (Option.some.inj hsome).symm

/-- As many elements of one value as there are decide how long the first run is. -/
theorem replicate_append_inj {k : Nat} {l₁ l₂ : List α} (h₁ : l₁.head? ≠ some a)
    (h₂ : l₂.head? ≠ some a) (h : List.replicate m a ++ l₁ = List.replicate k a ++ l₂) :
    m = k ∧ l₁ = l₂ := by
  induction m generalizing k with
  | zero =>
      cases k with
      | zero => exact ⟨rfl, h⟩
      | succ k =>
          rw [List.replicate_succ] at h
          exact absurd (congrArg List.head? h) h₁
  | succ m ih =>
      cases k with
      | zero =>
          rw [List.replicate_succ] at h
          exact absurd (congrArg List.head? h).symm h₂
      | succ k =>
          rw [List.replicate_succ, List.replicate_succ] at h
          obtain ⟨rfl, hl⟩ := ih (List.cons.inj h).2
          exact ⟨rfl, hl⟩

/-- A list has one encoding. -/
theorem Encodes.unique {ss : List (α × Nat)} (hr : Encodes rs l) (hs : Encodes ss l) :
    rs = ss := by
  induction rs generalizing ss l with
  | nil =>
      have hhead := hr.head?_eq.symm.trans hs.head?_eq
      cases ss with
      | nil => rfl
      | cons s ss => cases hhead
  | cons r rs ih =>
      have hhead := hr.head?_eq.symm.trans hs.head?_eq
      cases ss with
      | nil => cases hhead
      | cons s ss =>
          obtain ⟨a, m⟩ := r
          obtain ⟨b, k⟩ := s
          obtain rfl : a = b := Option.some.inj hhead
          have hexpand :
              List.replicate m a ++ Lib.expand rs = List.replicate k a ++ Lib.expand ss :=
            hr.expand.trans hs.expand.symm
          obtain ⟨rfl, hrest⟩ := replicate_append_inj hr.head?_tail_ne hs.head?_tail_ne hexpand
          rw [ih hr.tail (hrest ▸ hs.tail)]

end

end Soi.Lib
