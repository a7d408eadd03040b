import Soi.Lib.Seg

/-!
# `Soi.Lib.Links`: a linked list behind a pointer to a link

A list is often walked with the address of a link: of the variable that points to the first node,
or of the pointer of a node. A write through this address takes a node out or puts one in, and the
first node is no special case. `Links` are the variable and the pointers, and such an address is
`none` for the variable and `some i` for the pointer of `i`.

`Chain L l` is a list that ends with the null pointer. The address that is reached after the nodes
of `pre` is `pre.getLast?`, and the three lemmas are about the link there:

* `Chain.get`: it points to the rest of the list;
* `Chain.unlink`: with the successor of `i` in it, `i` is out of the list;
* `Chain.push`: at the end of the list, a new node goes there.
-/

set_option autoImplicit false

namespace Soi.Lib

/-- The pointer to the first node, and the pointer of each node. -/
@[ext] structure Links (ι : Type*) where
  head : Option ι
  next : ι → Option ι

namespace Links

variable {ι : Type*}

/-- What the link at this address points to. -/
def get (L : Links ι) : Option ι → Option ι
  | none => L.head
  | some i => L.next i

/-- The nodes of `l` in this order, and then the null pointer. -/
def Chain (L : Links ι) (l : List ι) : Prop := Seg L.next L.head l none

section
variable {L : Links ι} {pre rest l : List ι} {i : ι}

/-- A chain that ends visits each slot once at most, since otherwise it would not end. -/
theorem Chain.nodup (h : L.Chain l) : l.Nodup := Seg.nodup h

/-- The last node of a part of the list points to what comes after it. -/
theorem Chain.get_of_seg {q : Option ι} (h : Seg L.next L.head pre q) :
    L.get pre.getLast? = q := by
  rcases List.eq_nil_or_concat' pre with rfl | ⟨pre, a, rfl⟩
  · exact h
  · obtain ⟨r, -, -, hq⟩ := seg_append.mp h
    rw [List.getLast?_concat]
    exact hq

/-- The link behind `pre` points to the first node of the rest. -/
theorem Chain.get (h : L.Chain (pre ++ rest)) : L.get pre.getLast? = rest.head? := by
  obtain ⟨q, hpre, hrest⟩ := seg_append.mp h
  rw [Chain.get_of_seg hpre]
  exact hrest.head?_eq

variable [DecidableEq ι]

/-- The link at the address `p` gets the value `q`. -/
def set (L : Links ι) (p q : Option ι) : Links ι :=
  match p with
  | none => { L with head := q }
  | some i => { L with next := Function.update L.next i q }

/-- A write to the link behind `pre` keeps the list up to there. -/
theorem Chain.cut (h : L.Chain (pre ++ rest)) (q : Option ι) :
    Seg (L.set pre.getLast? q).next (L.set pre.getLast? q).head pre q := by
  rcases List.eq_nil_or_concat' pre with rfl | ⟨pre, a, rfl⟩
  · rfl
  · have ha : a ∉ pre := by
      have hnd := List.nodup_append.mp (List.nodup_append.mp h.nodup).1
      exact fun hmem => hnd.2.2 a hmem a List.mem_cons_self rfl
    obtain ⟨r, hpre, -⟩ := seg_append.mp h
    obtain ⟨r, hpre, hr, -⟩ := seg_append.mp hpre
    rw [List.getLast?_concat]
    refine seg_append.mpr ⟨r, (seg_update_of_notMem ha).mpr hpre, hr, ?_⟩
    exact Function.update_self a q L.next

/-- A write to the link behind `pre` does not change the pointers of the other nodes. -/
theorem next_set_of_notMem (hi : i ∉ pre) (q : Option ι) :
    (L.set pre.getLast? q).next i = L.next i := by
  rcases List.eq_nil_or_concat' pre with rfl | ⟨pre, a, rfl⟩
  · rfl
  · have hne : i ≠ a := fun hia => hi (by simp [hia])
    rw [List.getLast?_concat]
    exact Function.update_of_ne hne q L.next

/-- The link behind `pre` gets the successor of the node `i`, which it pointed to. -/
theorem Chain.unlink (h : L.Chain (pre ++ i :: rest)) :
    (L.set pre.getLast? (L.next i)).Chain (pre ++ rest) := by
  have hnd := List.nodup_append.mp h.nodup
  obtain ⟨q, -, -, hrest⟩ := seg_append.mp h
  refine seg_append.mpr ⟨L.next i, h.cut (L.next i), hrest.congr ?_⟩
  intro j hj
  have hout : j ∉ pre := fun hmem => hnd.2.2 j hmem j (List.mem_cons_of_mem i hj) rfl
  exact (next_set_of_notMem hout _).symm

/-- The link at the end of the list gets a new node, and this one gets the null pointer. -/
theorem Chain.push (h : L.Chain l) (hi : i ∉ l) :
    ((L.set l.getLast? (some i)).set (some i) none).Chain (l ++ [i]) := by
  have hall : L.Chain (l ++ []) := by rwa [List.append_nil]
  have hcut := hall.cut (some i)
  refine seg_append.mpr ⟨some i, (seg_update_of_notMem hi).mpr hcut, rfl, ?_⟩
  exact Function.update_self (β := fun _ => Option ι) i none _

end

end Links

end Soi.Lib
