import Soi.Lib.Extent

/-!
# `Soi.Lib.Transfer`: transfers to and from a store

Several owners write images to a store and read them back. A log is the list of the transfers,
the last one first. `LastWrite log p e` states that the last write of `p` went to the units of
`e`, and that nobody wrote to a unit of `e` since. `ReadsBack log` states that each read in the
log was made in such a state, so that it returned what its owner had written.

A write keeps the last writes of the other owners when it is disjoint from them
(`LastWrite.write`), and a read keeps all of them. A read of the last write keeps `ReadsBack`.

`readers log` are the owners of the reads, in the order in which these were made.
-/

set_option autoImplicit false

namespace Soi.Lib

/-- A transfer of the units of an extent. -/
inductive Transfer (ι : Type*) where
  | write (owner : ι) (units : Extent)
  | read (owner : ι) (units : Extent)

section
variable {ι : Type*} {log : List (Transfer ι)} {p q : ι} {e f : Extent}

/-- The last write of `p` went to `e`. Since then nobody wrote to a unit of `e`. -/
def LastWrite (log : List (Transfer ι)) (p : ι) (e : Extent) : Prop :=
  ∃ newer older, log = newer ++ .write p e :: older ∧
    ∀ q f, .write q f ∈ newer → q ≠ p ∧ ∀ x ∈ f, x ∉ e

/-- Each read returns what its owner wrote last. -/
def ReadsBack (log : List (Transfer ι)) : Prop :=
  ∀ newer p e older, log = newer ++ .read p e :: older → LastWrite older p e

/-- Right behind a write nobody has written to its units. -/
theorem LastWrite.self (log : List (Transfer ι)) (p : ι) (e : Extent) :
    LastWrite (.write p e :: log) p e :=
  ⟨[], log, rfl, fun _ _ h => absurd h List.not_mem_nil⟩

/-- A write of another owner to other units changes nothing about the last write of `p`. -/
theorem LastWrite.write (h : LastWrite log p e) (hq : q ≠ p) (hdisj : ∀ x ∈ f, x ∉ e) :
    LastWrite (.write q f :: log) p e := by
  obtain ⟨newer, older, rfl, hnewer⟩ := h
  refine ⟨.write q f :: newer, older, rfl, ?_⟩
  intro q' f' hmem
  rcases List.mem_cons.mp hmem with heq | hmem
  · cases heq
    exact ⟨hq, hdisj⟩
  · exact hnewer q' f' hmem

/-- A read writes nothing, so that each last write stays the last one. -/
theorem LastWrite.read (h : LastWrite log p e) (q : ι) (f : Extent) :
    LastWrite (.read q f :: log) p e := by
  obtain ⟨newer, older, rfl, hnewer⟩ := h
  refine ⟨.read q f :: newer, older, rfl, ?_⟩
  intro q' f' hmem
  rcases List.mem_cons.mp hmem with heq | hmem
  · cases heq
  · exact hnewer q' f' hmem

/-- At the start nothing was read. -/
theorem readsBack_nil : ReadsBack ([] : List (Transfer ι)) := by
  intro newer p e older h
  cases newer <;> cases h

/-- A write changes nothing about the reads before it. -/
theorem ReadsBack.write (h : ReadsBack log) (q : ι) (f : Extent) :
    ReadsBack (.write q f :: log) := by
  intro newer p e older heq
  cases newer with
  | nil => cases heq
  | cons t newer => exact h newer p e older (List.cons.inj heq).2

/-- A read of what its owner wrote last, from the units to which it was written. -/
theorem ReadsBack.read (h : ReadsBack log) (hlast : LastWrite log q f) :
    ReadsBack (.read q f :: log) := by
  intro newer p e older heq
  cases newer with
  | nil =>
      cases heq
      exact hlast
  | cons t newer => exact h newer p e older (List.cons.inj heq).2

/-- The owners of the reads, the first one first. -/
def readers : List (Transfer ι) → List ι
  | [] => []
  | .write _ _ :: log => readers log
  | .read p _ :: log => readers log ++ [p]

end

end Soi.Lib
