import Mathlib.Data.List.FinRange
import Mathlib.Data.List.Nodup
import Mathlib.Logic.Function.Basic

/-!
# `Soi.Lib.Seg`: linked lists inside a table

A table of nodes stores, for each node, an optional successor `next`. A linked list is
then not a value but a path: a start pointer, the nodes it visits, and the pointer where
the path ends. `Seg next p l q` is this path. A list that ends with the null pointer is a
segment with `q = none`.

The lemmas are the four facts a proof about such a list needs:

* `seg_append`: a segment splits at every node;
* `Seg.congr` and `seg_update_of_notMem`: a write to a node outside the list keeps it;
* `Seg.unlink` and `Seg.link`: the two pointer writes that take a node out and put one in;
* `Seg.unique`: a start pointer determines the list, so no node is on it twice (`Seg.nodup`).

`Seg.rotate` is a queue whose first node is put at its end.

`seg_succ` is the list of a table whose nodes are linked one after the other.
-/

set_option autoImplicit false

namespace Soi.Lib

variable {ι : Type*}

/-- From the pointer `p`, the successors visit exactly the nodes of `l`, in order, and
arrive at the pointer `q`. -/
def Seg (next : ι → Option ι) : Option ι → List ι → Option ι → Prop
  | p, [], q => p = q
  | p, i :: l, q => p = some i ∧ Seg next (next i) l q

section
variable {next next' : ι → Option ι} {p q r : Option ι} {i : ι} {l l₁ l₂ : List ι}

/-- An empty segment starts where it ends. -/
@[simp] theorem seg_nil : Seg next p [] q ↔ p = q := Iff.rfl

/-- A segment starts at its first slot and goes on at the next one. -/
@[simp] theorem seg_cons : Seg next p (i :: l) q ↔ p = some i ∧ Seg next (next i) l q := Iff.rfl

/-- A segment splits at every position: the first part ends where the second one starts. -/
theorem seg_append :
    Seg next p (l₁ ++ l₂) q ↔ ∃ r, Seg next p l₁ r ∧ Seg next r l₂ q := by
  induction l₁ generalizing p with
  | nil => simp
  | cons i l ih => simp only [List.cons_append, seg_cons, ih, exists_and_left, and_assoc]

/-- A segment only reads the successors of its own nodes. -/
theorem Seg.congr (h : Seg next p l q) (hnext : ∀ i ∈ l, next i = next' i) :
    Seg next' p l q := by
  induction l generalizing p with
  | nil => exact h
  | cons i l ih =>
      obtain ⟨hp, hl⟩ := h
      refine ⟨hp, ?_⟩
      rw [← hnext i List.mem_cons_self]
      exact ih hl fun j hj => hnext j (List.mem_cons_of_mem i hj)

/-- A segment that ends with the null pointer starts at the head of its list. -/
theorem Seg.head?_eq (h : Seg next p l none) : p = l.head? := by
  cases l with
  | nil => exact h
  | cons i l => exact h.1

/-- The start pointer determines the list. -/
theorem Seg.unique (h₁ : Seg next p l₁ none) (h₂ : Seg next p l₂ none) : l₁ = l₂ := by
  induction l₁ generalizing p l₂ with
  | nil =>
      cases l₂ with
      | nil => rfl
      | cons j l₂ =>
          have hp : p = none := h₁
          rw [hp] at h₂
          exact absurd h₂.1 (by simp)
  | cons i l ih =>
      cases l₂ with
      | nil =>
          have hp : p = none := h₂
          rw [hp] at h₁
          exact absurd h₁.1 (by simp)
      | cons j l₂ =>
          have hij : i = j := Option.some.inj (h₁.1.symm.trans h₂.1)
          subst hij
          rw [ih h₁.2 h₂.2]

/-- A node on the list twice would have two different lists behind it. -/
theorem Seg.nodup (h : Seg next p l none) : l.Nodup := by
  induction l generalizing p with
  | nil => exact List.nodup_nil
  | cons i l ih =>
      refine List.nodup_cons.mpr ⟨?_, ih h.2⟩
      intro hi
      obtain ⟨l₁, l₂, rfl⟩ := List.append_of_mem hi
      obtain ⟨r, -, hr, htail⟩ := seg_append.mp h.2
      have hsame : l₁ ++ i :: l₂ = l₂ := Seg.unique h.2 htail
      have hlen := congrArg List.length hsame
      rw [List.length_append, List.length_cons] at hlen
      omega

variable [DecidableEq ι]

/-- A write to a node outside the list keeps the segment. -/
theorem seg_update_of_notMem (hi : i ∉ l) :
    Seg (Function.update next i r) p l q ↔ Seg next p l q := by
  have hne : ∀ j ∈ l, Function.update next i r j = next j := fun j hj =>
    Function.update_of_ne (ne_of_mem_of_not_mem hj hi) _ _
  exact ⟨fun h => h.congr hne, fun h => h.congr fun j hj => (hne j hj).symm⟩

/-- Taking a node out: its predecessor gets its successor. -/
theorem Seg.unlink {a b : ι} (h : Seg next p (l₁ ++ a :: b :: l₂) q)
    (hnd : (l₁ ++ a :: b :: l₂).Nodup) :
    Seg (Function.update next a (next b)) p (l₁ ++ a :: l₂) q := by
  have hsplit := List.nodup_append.mp hnd
  have ha₁ : a ∉ l₁ := fun h => hsplit.2.2 a h a (by simp) rfl
  have ha₂ : a ∉ l₂ := by
    have := (List.nodup_cons.mp hsplit.2.1).1
    exact fun h => this (List.mem_cons_of_mem b h)
  obtain ⟨r, h₁, hr, -, h₂⟩ := seg_append.mp h
  refine seg_append.mpr ⟨r, (seg_update_of_notMem ha₁).mpr h₁, hr, ?_⟩
  rw [Function.update_self]
  exact (seg_update_of_notMem ha₂).mpr h₂

/-- Putting a node in: it gets its predecessor's successor, and the predecessor points
at it. -/
theorem Seg.link {a b : ι} (h : Seg next p (l₁ ++ a :: l₂) q)
    (hnd : (l₁ ++ a :: l₂).Nodup) (hb : b ∉ l₁ ++ a :: l₂) :
    Seg (Function.update (Function.update next b (next a)) a (some b)) p
      (l₁ ++ a :: b :: l₂) q := by
  have hsplit := List.nodup_append.mp hnd
  have ha₁ : a ∉ l₁ := fun h => hsplit.2.2 a h a (by simp) rfl
  have ha₂ : a ∉ l₂ := (List.nodup_cons.mp hsplit.2.1).1
  have hb₁ : b ∉ l₁ := fun h => hb (List.mem_append_left _ h)
  have hb₂ : b ∉ l₂ := fun h => hb (by simp [h])
  have hba : b ≠ a := fun h => hb (by simp [h])
  obtain ⟨r, h₁, hr, h₂⟩ := seg_append.mp h
  refine seg_append.mpr ⟨r, ?_, hr, ?_, ?_⟩
  · exact (seg_update_of_notMem ha₁).mpr ((seg_update_of_notMem hb₁).mpr h₁)
  · exact Function.update_self _ _ _
  · rw [Function.update_of_ne hba, Function.update_self]
    exact (seg_update_of_notMem ha₂).mpr ((seg_update_of_notMem hb₂).mpr h₂)

/-- The first node of a list that ends with the null pointer goes to its end: the last node gets it
as its successor, and then it has none. -/
theorem Seg.rotate {a t : ι} (h : Seg next p (a :: l) none) (ht : (a :: l).getLast? = some t) :
    Seg (Function.update (Function.update next t (some a)) a none)
      (Function.update next t (some a) a) (l ++ [a]) none := by
  have ha : a ∉ l := (List.nodup_cons.mp h.nodup).1
  rcases List.eq_nil_or_concat' l with rfl | ⟨l, b, rfl⟩
  · have hta : a = t := Option.some.inj ht
    subst hta
    exact ⟨Function.update_self a (some a) next, Function.update_self _ _ _⟩
  · have hlast : (a :: (l ++ [b])).getLast? = some b := List.getLast?_concat (l := a :: l)
    have hbt : b = t := Option.some.inj (hlast.symm.trans ht)
    subst hbt
    have hb : b ∉ l := by
      have hnd := List.nodup_append.mp (List.nodup_cons.mp h.nodup).2
      exact fun hmem => hnd.2.2 b hmem b List.mem_cons_self rfl
    have hab : a ≠ b := fun hab => ha (by simp [hab])
    obtain ⟨r, hl, hr, -⟩ := seg_append.mp h.2
    refine seg_append.mpr ⟨some a, seg_append.mpr ⟨r, ?_, hr, ?_⟩, rfl, ?_⟩
    · rw [Function.update_of_ne hab]
      refine (seg_update_of_notMem fun hmem => ha (List.mem_append_left _ hmem)).mpr ?_
      exact (seg_update_of_notMem hb).mpr hl
    · rw [Function.update_of_ne (Ne.symm hab)]
      exact Function.update_self _ _ _
    · exact Function.update_self _ _ _

end

/-- The entries from `k` on, when each entry points to the one behind it. -/
theorem seg_succ {n : Nat} {next : Fin n → Option (Fin n)}
    (hnext : ∀ i : Fin n, next i = if h : i.val + 1 < n then some ⟨i.val + 1, h⟩ else none)
    (j k : Nat) (hk : k + j = n) :
    Seg next (if h : k < n then some ⟨k, h⟩ else none) ((List.finRange n).drop k) none := by
  induction j generalizing k with
  | zero =>
      have hlen : (List.finRange n).length ≤ k := by
        rw [List.length_finRange]
        omega
      rw [List.drop_eq_nil_of_le hlen, dif_neg (by omega)]
      rfl
  | succ j ih =>
      have hlt : k < (List.finRange n).length := by
        rw [List.length_finRange]
        omega
      rw [List.drop_eq_getElem_cons hlt, dif_pos (by omega), List.getElem_finRange]
      refine ⟨rfl, ?_⟩
      rw [hnext]
      exact ih (k + 1) (by omega)

end Soi.Lib
