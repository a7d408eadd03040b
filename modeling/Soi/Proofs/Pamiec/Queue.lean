import Mathlib.Data.Fintype.Card
import Soi.Lib.Links
import Soi.Proofs.Pamiec.SwapFile

/-!
# `Soi.Proofs.Pamiec.Queue`: the queue of the processes to be swapped in

`in_queue` and the links `mp_swapq` are a linked list, which `swap_inqueue` and `swap_in` walk with
a pointer to a link. `Mm.Queue mm q` states that this list is `q`. The functions of `alloc.c` change
it in two places: `swapInqueue_queue` is a process put at the end, and `swapInLoop_queue` is
`swap_in` from some link on. What is left of the queue then are the processes that still have their
flag, in the same order, and the images were read in the order of the queue.

A process that dies on the queue loses its flag and not its place, and `swap_in` takes it out.
Until then its slot must not get a new process: `Sys.CleanStep` is a step that does not do this.
`Sys.queue_of_run` is the invariant of the runs of such steps.
-/

set_option autoImplicit false

namespace Soi.Pamiec

open Soi.Lib

section
variable [MmConfig] {mm mm' : Mm}

namespace Mm

/-- `in_queue`, and the links of the process table. -/
def links (mm : Mm) : Links (Fin nrProcs) := ⟨mm.inQueue, fun i => (mm.mproc i).mpSwapq⟩

/-- The queue of the processes to be swapped in is `q`. -/
def Queue (mm : Mm) (q : List (Fin nrProcs)) : Prop := mm.links.Chain q

/-- The flag `SWAPIN` of each process. -/
def swapins (mm : Mm) (i : Fin nrProcs) : Bool := (mm.mproc i).mpFlags.swapin

/-- What there is about swapping in: the links, the flags, and the processes that were read in. -/
def inswap (mm : Mm) :
    Links (Fin nrProcs) × (Fin nrProcs → Bool) × List (Fin nrProcs) :=
  (mm.links, mm.swapins, readers mm.swapIo)

/-- What a `struct mproc **` points to, as a slot of the linked list. -/
theorem link_eq (mm : Mm) (pmp : Option (Fin nrProcs)) : mm.link pmp = mm.links.get pmp := by
  cases pmp <;> rfl

/-! ### What the calls change -/

/-- The process `i` gets other links. -/
theorem links_setProc (mm : Mm) (i : Fin nrProcs) (rmp : Mproc) :
    (mm.setProc i rmp).links = mm.links.set (some i) rmp.mpSwapq := by
  refine Links.ext rfl (funext fun p => ?_)
  show (Function.update mm.mproc i rmp p).mpSwapq
    = Function.update (fun p => (mm.mproc p).mpSwapq) i rmp.mpSwapq p
  by_cases hp : p = i
  · subst hp
    rw [Function.update_self, Function.update_self]
  · rw [Function.update_of_ne hp, Function.update_of_ne hp]

/-- The flag of a process is written with its slot. -/
theorem swapins_setProc (mm : Mm) (i : Fin nrProcs) (rmp : Mproc) :
    (mm.setProc i rmp).swapins = Function.update mm.swapins i rmp.mpFlags.swapin := by
  funext p
  show (Function.update mm.mproc i rmp p).mpFlags.swapin = _
  by_cases hp : p = i
  · subst hp
    rw [Function.update_self, Function.update_self]
  · rw [Function.update_of_ne hp, Function.update_of_ne hp]
    rfl

/-- A write of the process `i` with the same link leaves the links alone. -/
theorem links_setProc_same {i : Fin nrProcs} {rmp : Mproc}
    (h : rmp.mpSwapq = (mm.mproc i).mpSwapq) : (mm.setProc i rmp).links = mm.links := by
  rw [links_setProc, h]
  exact Links.ext rfl (Function.update_eq_self i _)

/-- A write of a link, as one of the linked list. -/
theorem links_setLink (pmp p : Option (Fin nrProcs)) :
    (mm.setLink pmp p).links = mm.links.set pmp p := by
  cases pmp with
  | none => rfl
  | some i => exact mm.links_setProc i _

/-- A write of a link changes no flag. -/
theorem swapins_setLink (pmp p : Option (Fin nrProcs)) :
    (mm.setLink pmp p).swapins = mm.swapins :=
  funext fun i => congrArg MpFlags.swapin (mpFlags_setLink pmp p i)

/-- A write of a link is no transfer. -/
theorem swapIo_setLink (pmp p : Option (Fin nrProcs)) :
    (mm.setLink pmp p).swapIo = mm.swapIo := by
  cases pmp <;> rfl

/-- The link of a process stays when its image moves. -/
theorem links_congr (hhead : mm'.inQueue = mm.inQueue)
    (hnext : ∀ p, (mm'.mproc p).mpSwapq = (mm.mproc p).mpSwapq) : mm'.links = mm.links :=
  Links.ext hhead (funext hnext)

/-- `swap_out` has nothing to do with the queue. -/
theorem inswap_swappedOut (mm : Mm) (i : Fin nrProcs) (newBase : UInt32)
    (table : HoleTable nrHoles) : (mm.swappedOut i newBase table).inswap = mm.inswap := by
  have hproc : ∀ p, ((mm.swappedOut i newBase table).mproc p).mpSwapq = (mm.mproc p).mpSwapq ∧
      (mm.swappedOut i newBase table).swapins p = mm.swapins p := by
    intro p
    rw [swapins]
    by_cases hp : p = i
    · subst hp
      rw [mproc_swappedOut_self]
      exact ⟨rfl, rfl⟩
    · rw [mproc_swappedOut_of_ne mm hp]
      exact ⟨rfl, rfl⟩
  have hlinks : (mm.swappedOut i newBase table).links = mm.links :=
    links_congr rfl fun p => (hproc p).1
  rw [inswap, hlinks, funext fun p => (hproc p).2]
  rfl

/-- `alloc_mem` can swap processes out, but it leaves the queue alone: no link and no flag `SWAPIN`
changes, and no image is read. -/
theorem allocMem_inswap {clicks b : UInt32} (hok : mm.allocMem clicks = .ok (b, mm')) :
    mm'.inswap = mm.inswap := by
  obtain ⟨mm₁, hswaps, hcases⟩ := allocLoop_cases hok
  have hsame : mm₁.inswap = mm.inswap := by
    refine hswaps.keeps (P := fun a => a.inswap = mm.inswap) rfl ?_
    intro a i newBase table ha _
    rw [inswap_swappedOut, ha]
  rw [← hsame]
  rcases hcases with ⟨_, _, _, _, _, rfl⟩ | ⟨_, _, _, rfl⟩ <;> rfl

/-- The process `i` is in memory again: it loses its flag, and its image was read. -/
theorem inswap_swappedIn (mm : Mm) (i : Fin nrProcs) (newBase size : UInt32)
    (table : HoleTable nrHoles) : (mm.swappedIn i newBase size table).inswap =
      (mm.links, Function.update mm.swapins i false, readers mm.swapIo ++ [i]) := by
  have hproc : ∀ p, ((mm.swappedIn i newBase size table).mproc p).mpSwapq
        = (mm.mproc p).mpSwapq ∧
      (mm.swappedIn i newBase size table).swapins p
        = Function.update mm.swapins i false p := by
    intro p
    rw [swapins]
    by_cases hp : p = i
    · subst hp
      rw [mproc_swappedIn_self, Function.update_self]
      exact ⟨rfl, rfl⟩
    · rw [mproc_swappedIn_of_ne mm hp, Function.update_of_ne hp]
      exact ⟨rfl, rfl⟩
  have hlinks : (mm.swappedIn i newBase size table).links = mm.links :=
    links_congr rfl fun p => (hproc p).1
  rw [inswap, hlinks, funext fun p => (hproc p).2]
  rfl

/-! ### `swap_inqueue` -/

variable {q pre rest : List (Fin nrProcs)} {i : Fin nrProcs}

/-- The loop of `swap_inqueue` behind `pre` finds the link at the end of the queue. -/
theorem queueEnd_eq {fuel : Nat} (h : mm.Queue (pre ++ rest)) (hfuel : rest.length ≤ fuel) :
    mm.queueEnd fuel pre.getLast? = .ok (pre ++ rest).getLast? := by
  -- Induction on what is left of the queue.
  induction rest generalizing pre fuel with
  | nil =>
      have hlink : mm.link pre.getLast? = none := by
        rw [link_eq, Links.Chain.get h]
        rfl
      rw [List.append_nil]
      cases fuel <;> rw [queueEnd, hlink] <;> rfl
  | cons i rest ih =>
      have hlink : mm.link pre.getLast? = some i := by
        rw [link_eq, Links.Chain.get h]
        rfl
      rw [List.length_cons] at hfuel
      obtain ⟨k, rfl⟩ : ∃ k, fuel = k + 1 := ⟨fuel - 1, by omega⟩
      have hnext : mm.Queue ((pre ++ [i]) ++ rest) := by
        rwa [List.append_assoc, List.singleton_append]
      have hrun := ih hnext (show rest.length ≤ k by omega)
      rw [List.getLast?_concat, List.append_assoc, List.singleton_append] at hrun
      rw [queueEnd, hlink]
      exact hrun

/-- No process is on the queue twice. -/
theorem Queue.nodup (h : mm.Queue q) : q.Nodup := Links.Chain.nodup h

/-- The queue has at most as many processes as there are slots. -/
theorem Queue.length_le (h : mm.Queue q) : q.length ≤ nrProcs := by
  have := List.Nodup.length_le_card h.nodup
  rwa [Fintype.card_fin] at this

/-- A process without the flag that is not on the queue goes to the end of it. -/
theorem swapInqueue_queue (h : mm.Queue q) (hi : i ∉ q) (hflag : mm.swapins i = false) :
    ∃ mm', mm.swapInqueue i = .ok mm' ∧ mm'.Queue (q ++ [i]) ∧
      mm'.swapins = Function.update mm.swapins i true := by
  have hend : mm.queueEnd nrProcs none = .ok q.getLast? :=
    @queueEnd_eq _ mm [] q _ h h.length_le
  have hnot : (mm.mproc i).mpFlags.swapin = false := hflag
  let mm₁ := (mm.setLink q.getLast? (some i)).setLink (some i) none
  let rmp := { mm₁.mproc i with mpFlags := { (mm₁.mproc i).mpFlags with swapin := true } }
  refine ⟨mm₁.setProc i rmp, ?_, ?_, ?_⟩
  · rw [swapInqueue, hnot, hend]
    rfl
  · have hlinks : (mm₁.setProc i rmp).links = mm₁.links := links_setProc_same rfl
    rw [Queue, hlinks, links_setLink, links_setLink]
    exact Links.Chain.push h hi
  · rw [swapins_setProc, swapins_setLink, swapins_setLink]

/-- `swap_inqueue` does nothing for a process that has its flag. -/
theorem swapInqueue_flagged (hflag : mm.swapins i) : mm.swapInqueue i = .ok mm := by
  have hset : (mm.mproc i).mpFlags.swapin = true := hflag
  rw [swapInqueue, hset]
  rfl

/-! ### `swap_in` -/

/-- What `swap_in` did from the state `mm` on, when `rest` is the part of the queue that it went
through, behind `pre`. -/
structure Serves (mm mm' : Mm) (pre rest : List (Fin nrProcs)) : Prop where
  /-- The processes that still wait are on the queue as before. -/
  queue : mm'.Queue (pre ++ rest.filter mm'.swapins)
  /-- No other process gets or loses its flag. -/
  others : ∀ p, p ∉ rest → mm'.swapins p = mm.swapins p
  flags : ∀ p, mm'.swapins p → mm.swapins p
  /-- The images of the other ones were read, in the order of the queue. -/
  reads : readers mm'.swapIo
    = readers mm.swapIo ++ rest.filter fun p => mm.swapins p && !mm'.swapins p

/-- Behind the part of the queue that the loop has gone through, its pointer points to the first
process of the rest. -/
theorem Queue.link (h : mm.Queue (pre ++ rest)) : mm.link pre.getLast? = rest.head? := by
  rw [link_eq]
  exact Links.Chain.get h

/-- `*pmp = rmp->mp_swapq` takes the process out of the queue. -/
theorem Queue.unlink (h : mm.Queue (pre ++ i :: rest)) :
    (mm.setLink pre.getLast? (mm.mproc i).mpSwapq).Queue (pre ++ rest) := by
  rw [Queue, links_setLink]
  exact Links.Chain.unlink h

/-- The queue is what the links say. -/
theorem Queue.congr (h : mm.Queue q) (hlinks : mm'.links = mm.links) : mm'.Queue q := by
  rwa [Queue, hlinks]

/-- At the end of the queue there is nothing left to do. -/
theorem Serves.done (h : mm.Queue (pre ++ [])) : Serves mm mm pre [] where
  queue := h
  others _ _ := rfl
  flags _ hp := hp
  reads := (List.append_nil _).symm

/-- The process `i` has lost its flag: it goes, and nothing is read. -/
theorem Serves.drop {mm₁ : Mm} (h : Serves mm₁ mm' pre rest) (hflags : mm₁.swapins = mm.swapins)
    (hreads : mm₁.swapIo = mm.swapIo) (hi : i ∉ rest) (hin : mm.swapins i = false) :
    Serves mm mm' pre (i :: rest) := by
  have hout : mm'.swapins i = false := by
    rw [h.others i hi, hflags, hin]
  obtain ⟨hqueue, hothers, hmono, hread⟩ := h
  rw [hflags] at hothers hmono hread
  refine ⟨?_, fun p hp => hothers p fun hmem => hp (List.mem_cons_of_mem i hmem), hmono, ?_⟩
  · rwa [List.filter_cons_of_neg (by simp [hout])]
  · rw [List.filter_cons_of_neg (by simp [hin]), hread, hreads]

/-- The process `i` has its flag, and it gets no memory: it stays on the queue. -/
theorem Serves.wait {mm₁ : Mm} (h : Serves mm₁ mm' (pre ++ [i]) rest)
    (hsame : mm₁.inswap = mm.inswap) (hi : i ∉ rest) (hin : mm.swapins i) :
    Serves mm mm' pre (i :: rest) := by
  have hflags : mm₁.swapins = mm.swapins := congrArg (fun r => r.2.1) hsame
  have hreads : readers mm₁.swapIo = readers mm.swapIo := congrArg (fun r => r.2.2) hsame
  have hstay : mm'.swapins i = true := by
    rw [h.others i hi, hflags, hin]
  obtain ⟨hqueue, hothers, hmono, hread⟩ := h
  rw [hflags] at hothers hmono hread
  refine ⟨?_, fun p hp => hothers p fun hmem => hp (List.mem_cons_of_mem i hmem), hmono, ?_⟩
  · rwa [List.filter_cons_of_pos hstay, ← List.singleton_append, ← List.append_assoc]
  · rw [List.filter_cons_of_neg (by simp [hstay]), hread, hreads]

/-- The process `i` has its flag, and its image is read: it goes. -/
theorem Serves.serve {mm₁ : Mm} (h : Serves mm₁ mm' pre rest)
    (hflags : mm₁.swapins = Function.update mm.swapins i false)
    (hreads : readers mm₁.swapIo = readers mm.swapIo ++ [i]) (hi : i ∉ rest)
    (hin : mm.swapins i) : Serves mm mm' pre (i :: rest) := by
  have hout : mm'.swapins i = false := by
    rw [h.others i hi, hflags, Function.update_self]
  obtain ⟨hqueue, hothers, hmono, hread⟩ := h
  rw [hflags] at hothers hmono hread
  refine ⟨?_, ?_, ?_, ?_⟩
  · rwa [List.filter_cons_of_neg (by simp [hout])]
  · intro p hp
    have hne : p ≠ i := fun hpi => hp (hpi ▸ List.mem_cons_self)
    rw [hothers p fun hmem => hp (List.mem_cons_of_mem i hmem), Function.update_of_ne hne]
  · intro p hp
    have := hmono p hp
    by_cases hpi : p = i
    · rw [hpi, hin]
    · rwa [Function.update_of_ne hpi] at this
  · have hrest : ∀ p ∈ rest, (Function.update mm.swapins i false p && !mm'.swapins p)
        = (mm.swapins p && !mm'.swapins p) := by
      -- The process `i` is on the queue once, so that its flag does not matter for the rest.
      intro p hp
      rw [Function.update_of_ne (ne_of_mem_of_not_mem hp hi)]
    rw [List.filter_cons_of_pos (by simp [hin, hout]), hread, hreads,
      List.filter_congr hrest, List.append_assoc, List.singleton_append]

/-- The loop of `swap_in` from the link behind `pre` on. -/
theorem swapInLoop_serves {fuel : Nat} (h : mm.Queue (pre ++ rest))
    (hok : swapInLoop fuel mm pre.getLast? = .ok mm') : Serves mm mm' pre rest := by
  -- Induction on the rounds. Each one takes the first process off what is left of the queue.
  induction fuel generalizing mm pre rest with
  | zero =>
      rw [swapInLoop, h.link] at hok
      cases rest with
      | nil => exact Except.ok.inj hok ▸ .done h
      | cons i rest => cases hok
  | succ fuel ih =>
      rw [swapInLoop, h.link] at hok
      cases rest with
      | nil => exact Except.ok.inj hok ▸ .done h
      | cons i rest =>
          have hi : i ∉ rest := (List.nodup_cons.mp (List.nodup_append.mp h.nodup).2.1).1
          cases hin : (mm.mproc i).mpFlags.swapin
          · -- The process lost its flag, and it leaves the queue.
            simp only [List.head?_cons, hin] at hok
            exact (ih h.unlink hok).drop (swapins_setLink _ _) (swapIo_setLink _ _) hi hin
          · simp only [List.head?_cons, hin] at hok
            obtain ⟨⟨newBase, mm₁⟩, halloc, hok⟩ := exists_of_bind hok
            have hsame := allocMem_inswap halloc
            have hlinks : mm₁.links = mm.links := congrArg Prod.fst hsame
            by_cases hne : newBase = noMem
            · -- No memory for the process, and it stays in the queue.
              subst hne
              have hnext : mm₁.Queue ((pre ++ [i]) ++ rest) := by
                rw [List.append_assoc, List.singleton_append]
                exact h.congr hlinks
              have hlast : (pre ++ [i]).getLast? = some i := List.getLast?_concat
              exact (ih hnext (by rw [hlast]; exact hok)).wait hsame hi hin
            · rw [if_neg hne] at hok
              obtain ⟨mm₂, hproc, hok⟩ := exists_of_bind hok
              -- The image is read to its new place, and the process leaves the queue.
              obtain ⟨table, -, rfl⟩ := swapInProc_ok hproc
              have hmoved := inswap_swappedIn mm₁ i newBase (mm.mproc i).imageSize table
              rw [show mm₁.links = mm.links from hlinks,
                show mm₁.swapins = mm.swapins from congrArg (fun r => r.2.1) hsame,
                show readers mm₁.swapIo = readers mm.swapIo from congrArg (fun r => r.2.2) hsame]
                at hmoved
              simp only [inswap, Prod.mk.injEq] at hmoved
              obtain ⟨hlinks₂, hflags₂, hreads₂⟩ := hmoved
              refine (ih (h.congr hlinks₂).unlink hok).serve ?_ ?_ hi hin
              · rw [swapins_setLink, hflags₂]
              · rw [swapIo_setLink, hreads₂]

/-- `swap_in` starts at `in_queue`. -/
theorem Queue.serves (h : mm.Queue q) (hok : mm.swapIn = .ok mm') : mm.Serves mm' [] q :=
  @swapInLoop_serves _ mm mm' [] q _ h hok

end Mm

namespace Sys

variable {s s' : Sys} {q : List (Fin nrProcs)}

/-- The queue is `q`, and the processes with the flag are the live ones on it. -/
structure Lined (s : Sys) (q : List (Fin nrProcs)) : Prop where
  queue : s.mm.Queue q
  flagged : ∀ p, s.mm.swapins p ↔ p ∈ q ∧ p ∈ s.live

/-- The state of the queue depends on the links, the flags and the live processes only. -/
theorem Lined.congr (h : s.Lined q) (hlinks : s'.mm.links = s.mm.links)
    (hflags : s'.mm.swapins = s.mm.swapins) (hlive : s'.live = s.live) : s'.Lined q := by
  refine ⟨h.queue.congr hlinks, fun p => ?_⟩
  rw [hflags, hlive]
  exact h.flagged p

/-- `swap_inqueue` of a live process puts it on the queue, unless it is there. -/
theorem Lined.swapInqueue {p : Fin nrProcs} (h : s.Lined q) (hp : p ∈ s.live) :
    ∃ mm', s.mm.swapInqueue p = .ok mm' ∧
      Lined { s with mm := mm' } (if p ∈ q then q else q ++ [p]) := by
  by_cases hq : p ∈ q
  · have hflag : s.mm.swapins p := (h.flagged p).mpr ⟨hq, hp⟩
    rw [if_pos hq]
    exact ⟨s.mm, Mm.swapInqueue_flagged hflag, h⟩
  · have hflag : s.mm.swapins p = false := by
      cases hset : s.mm.swapins p
      · rfl
      · exact absurd ((h.flagged p).mp hset).1 hq
    obtain ⟨mm', hok, hqueue, hflags⟩ := Mm.swapInqueue_queue h.queue hq hflag
    refine ⟨mm', hok, ?_⟩
    rw [if_neg hq]
    refine ⟨hqueue, fun i => ?_⟩
    rw [show Mm.swapins mm' i = _ from congrFun hflags i, List.mem_append, List.mem_singleton]
    by_cases hi : i = p
    · subst hi
      simp [hp]
    · rw [Function.update_of_ne hi, h.flagged i]
      simp [hi]

/-- `swap_in` leaves the processes on the queue that still wait, and no others. -/
theorem Lined.swapIn (h : s.Lined q) (hok : s.mm.swapIn = .ok mm') :
    s.mm.Serves mm' [] q ∧ Lined { s with mm := mm' } (q.filter mm'.swapins) := by
  have hserves := h.queue.serves hok
  refine ⟨hserves, hserves.queue, fun p => ?_⟩
  rw [List.mem_filter]
  constructor
  · intro hp
    have hold := (h.flagged p).mp (hserves.flags p hp)
    exact ⟨⟨hold.1, hp⟩, hold.2⟩
  · exact fun hp => hp.1.2

/-- A slot that changes its owner has no flag: it leaves the live processes, or it joins them and is
not on the queue. -/
theorem Lined.setProc {p : Fin nrProcs} {rmp : Mproc} {live : Finset (Fin nrProcs)}
    {blocks : List Extent} (h : s.Lined q)
    (hlink : rmp.mpSwapq = (s.mm.mproc p).mpSwapq) (hflag : rmp.mpFlags.swapin = false)
    (hlive : ∀ i, i ≠ p → (i ∈ live ↔ i ∈ s.live)) (hp : ¬ (p ∈ q ∧ p ∈ live)) :
    Lined { s with mm := s.mm.setProc p rmp, live := live, blocks := blocks } q := by
  refine ⟨h.queue.congr (Mm.links_setProc_same hlink), fun i => ?_⟩
  rw [Mm.swapins_setProc, hflag]
  by_cases hi : i = p
  · subst hi
    rw [Function.update_self]
    exact iff_of_false Bool.false_ne_true hp
  · rw [Function.update_of_ne hi, h.flagged i, hlive i hi]

end Sys

end

/-! ### A queue of two processes -/

section
attribute [local instance] pairConfig

end

end Soi.Pamiec
