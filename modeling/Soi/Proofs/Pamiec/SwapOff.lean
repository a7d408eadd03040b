import Mathlib.Algebra.Order.BigOperators.Group.Finset
import Soi.Proofs.Pamiec.Boundary

/-!
# `Soi.Proofs.Pamiec.SwapOff`: turning swapping off

The loop of `swap_off` starts again at `hole_head` after each deletion, and the `for` then passes
this hole without a look at it. `removeSwapHole_rest` is the loop from there on: all swap holes
behind the first hole are removed. So the loop does its work when the first hole is one of memory
(`removeSwapHole_ok`). When it is a swap hole, its successor is passed over, or there is none and
the `for` reads the link of `NIL_HOLE` (`removeSwapHole_cons`, `removeSwapHole_single`).

`Swapping.after` carries the hole list over the calls of `swap_inqueue` and `swap_in`, and
`turnsOff_iff` is the result about `swap_off`. `Sys.Inv.swapping` shows that the reachable states
with swapping on are such states.
-/

set_option autoImplicit false

namespace Soi.Pamiec

open Soi.Lib

namespace HoleTable

variable {n : Nat} {t : HoleTable n} {swapBase : UInt32} {low high fs : List (Fin n)} {a : Fin n}

/-- The base of an entry is a part of its range. -/
theorem hBase_congr {t' : HoleTable n} (h : t'.extent = t.extent) (i : Fin n) :
    (t'.hole i).hBase = (t.hole i).hBase :=
  UInt32.toNat_inj.mp (congrArg Extent.base (congrFun h i))

/-- The loop passes holes below `swapBase`. -/
theorem removeSwapHole_pass {hp q prev : Option (Fin n)} (fuel : Nat)
    (hseg : Seg t.next hp low q) (hlow : ∀ i ∈ low, (t.hole i).hBase < swapBase) :
    t.removeSwapHole swapBase (low.length + fuel) prev hp
      = t.removeSwapHole swapBase fuel (low.getLast?.or prev) q := by
  induction low generalizing hp prev with
  | nil =>
      have hq : hp = q := hseg
      rw [hq, List.length_nil, Nat.zero_add]
      rfl
  | cons i low ih =>
      obtain ⟨rfl, hseg⟩ := hseg
      rw [List.length_cons, Nat.add_right_comm, removeSwapHole,
        if_neg (UInt32.not_le.mpr (hlow i List.mem_cons_self)), ← getLast?_or_cons]
      exact ih hseg fun j hj => hlow j (List.mem_cons_of_mem i hj)

/-- The loop behind the first hole `a`, whatever this is: the swap holes are removed one by one. -/
theorem removeSwapHole_rest {fuel : Nat} (h : t.Slots (a :: low ++ high) fs)
    (hlow : ∀ i ∈ low, (t.hole i).hBase < swapBase)
    (hhigh : ∀ i ∈ high, swapBase ≤ (t.hole i).hBase)
    (hfuel : (high.length + 1) * low.length + high.length ≤ fuel) :
    ∃ t', t.removeSwapHole swapBase fuel (some a) (t.next a) = .ok t' ∧
      t'.Slots (a :: low) (high.reverse ++ fs) ∧ t'.extent = t.extent := by
  -- Induction on the swap holes: after each deletion the loop is behind `a` again.
  induction high generalizing t fs fuel with
  | nil =>
      obtain ⟨k, rfl⟩ : ∃ k, fuel = low.length + k := ⟨fuel - low.length, by simp at hfuel; omega⟩
      have hslots : t.Slots (a :: low) fs := by simpa using h
      refine ⟨t, ?_, hslots, rfl⟩
      rw [removeSwapHole_pass k hslots.holes.2 hlow]
      cases k <;> rfl
  | cons b high ih =>
      obtain ⟨r, hpass, rfl, -⟩ := seg_append.mp h.holes.2
      rw [List.length_cons, Nat.add_mul, Nat.one_mul] at hfuel
      obtain ⟨k, rfl⟩ : ∃ k, fuel = low.length + (k + 1) :=
        ⟨fuel - low.length - 1, by omega⟩
      have hprev : ∀ c ∈ (a :: low).getLast?, low.getLast?.or (some a) = some c := by
        intro c hc
        rw [getLast?_or_cons a low none, Option.or_none]
        exact hc
      obtain ⟨t₁, hdel, hslots, hext⟩ := delSlot_spec (low.getLast?.or (some a)) h hprev
      have hhead : t₁.holeHead = some a := hslots.holes.1
      have hsteps : (high.length + 1) * low.length + high.length ≤ k := by omega
      obtain ⟨t', hok, hslots', hext'⟩ := ih hslots
        (fun i hi => hBase_congr hext i ▸ hlow i hi)
        (fun i hi => hBase_congr hext i ▸ hhigh i (List.mem_cons_of_mem b hi)) hsteps
      refine ⟨t', ?_, ?_, hext'.trans hext⟩
      · rw [removeSwapHole_pass (k + 1) hpass hlow, removeSwapHole,
          if_pos (hhigh b List.mem_cons_self), hdel]
        simp only [bind, Except.bind, hhead]
        exact hok
      · simpa using hslots'

/-- With no swap hole at the head, the swap holes are removed and the others stay. -/
theorem removeSwapHole_ok (h : t.Slots (low ++ high) fs)
    (hlow : ∀ i ∈ low, (t.hole i).hBase < swapBase)
    (hhigh : ∀ i ∈ high, swapBase ≤ (t.hole i).hBase) (hfirst : low = [] → high = []) :
    ∃ t', t.removeSwapHole swapBase ((n + 1) * n) none t.holeHead = .ok t' ∧
      t'.Slots low (high.reverse ++ fs) ∧ t'.extent = t.extent := by
  cases low with
  | nil =>
      obtain rfl := hfirst rfl
      refine ⟨t, ?_, h, rfl⟩
      rw [show t.holeHead = none from h.holes]
      cases (n + 1) * n <;> rfl
  | cons a low =>
      have hhead : t.holeHead = some a := h.holes.1
      have hlen := h.length_le
      rw [List.length_append, List.length_cons] at hlen
      -- One step for `a`, and `high.length + 1` times the way over `low`.
      have hsteps : (high.length + 1) * low.length + high.length + 1 ≤ (n + 1) * n := by
        have hmul := Nat.mul_le_mul (show high.length + 1 ≤ n + 1 by omega)
          (show low.length + 1 ≤ n by omega)
        rw [Nat.mul_add, Nat.mul_one] at hmul
        omega
      obtain ⟨k, hk⟩ : ∃ k, (n + 1) * n = k + 1 := ⟨(n + 1) * n - 1, by omega⟩
      obtain ⟨t', hok, hslots, hext⟩ := removeSwapHole_rest h
        (fun i hi => hlow i (List.mem_cons_of_mem a hi)) hhigh (show _ ≤ k by omega)
      refine ⟨t', ?_, hslots, hext⟩
      rw [hk, hhead, removeSwapHole, if_neg (UInt32.not_le.mpr (hlow a List.mem_cons_self))]
      exact hok

/-- The only hole is a swap hole: after its deletion the `for` reads the link of `NIL_HOLE`. -/
theorem removeSwapHole_single (h : t.Slots [a] fs) (ha : swapBase ≤ (t.hole a).hBase) :
    t.removeSwapHole swapBase ((n + 1) * n) none t.holeHead = .error .nilHole := by
  have hhead : t.holeHead = some a := h.holes.1
  have hlen := h.length_le
  have hpos : 0 < (n + 1) * n := Nat.mul_pos (Nat.succ_pos n) hlen
  obtain ⟨k, hk⟩ : ∃ k, (n + 1) * n = k + 1 := ⟨(n + 1) * n - 1, by omega⟩
  obtain ⟨t₁, hdel, hslots, -⟩ := delSlot_spec none (show t.Slots ([] ++ [a]) fs from h) (by simp)
  have hnone : t₁.holeHead = none := hslots.holes
  rw [hk, hhead, removeSwapHole, if_pos ha, hdel]
  simp only [bind, Except.bind, hnone]
  rfl

/-- All holes are swap holes: the second one is passed over and stays. -/
theorem removeSwapHole_cons {b : Fin n} (h : t.Slots (a :: b :: high) fs)
    (hhigh : ∀ i ∈ a :: b :: high, swapBase ≤ (t.hole i).hBase) :
    ∃ t', t.removeSwapHole swapBase ((n + 1) * n) none t.holeHead = .ok t' ∧
      t'.Slots [b] (high.reverse ++ a :: fs) ∧ t'.extent = t.extent := by
  have hhead : t.holeHead = some a := h.holes.1
  have hlen := h.length_le
  rw [List.length_cons, List.length_cons] at hlen
  have hle : n ≤ (n + 1) * n := Nat.le_mul_of_pos_left n (Nat.succ_pos n)
  obtain ⟨k, hk⟩ : ∃ k, (n + 1) * n = k + 1 := ⟨(n + 1) * n - 1, by omega⟩
  obtain ⟨t₁, hdel, hslots, hext⟩ :=
    delSlot_spec none (show t.Slots ([] ++ a :: b :: high) fs from h) (by simp)
  have hhead₁ : t₁.holeHead = some b := hslots.holes.1
  have hhigh₁ : ∀ i ∈ high, swapBase ≤ (t₁.hole i).hBase := by
    intro i hi
    rw [hBase_congr hext]
    exact hhigh i (by simp [hi])
  -- No hole is below `swap_base`, so each step removes one.
  have hsteps : (high.length + 1) * ([] : List (Fin n)).length + high.length ≤ k := by
    rw [List.length_nil, Nat.mul_zero]
    omega
  obtain ⟨t', hok, hslots', hext'⟩ :=
    removeSwapHole_rest (show t₁.Slots (b :: [] ++ high) (a :: fs) from hslots) (by simp) hhigh₁
      hsteps
  refine ⟨t', ?_, hslots', hext'.trans hext⟩
  rw [hk, hhead, removeSwapHole, if_pos (hhigh a List.mem_cons_self), hdel]
  simp only [bind, Except.bind, hhead₁]
  exact hok

end HoleTable

section
variable [MmConfig] {mm mm₀ mm₁ mm' : Mm} {live : Finset (Fin nrProcs)} {T : Nat → Nat}
  {hs fs : List (Fin nrHoles)}

namespace Mm

/-! ### Queueing and swapping in -/

/-- `swap_inqueue` changes the flags of no other process, and it puts nobody on swap. -/
theorem swapInqueue_flags {i : Fin nrProcs} (hok : mm.swapInqueue i = .ok mm') :
    (∀ p, p ≠ i → (mm'.mproc p).mpFlags = (mm.mproc p).mpFlags) ∧
      ∀ p, (mm'.mproc p).mpFlags.onswap = (mm.mproc p).mpFlags.onswap := by
  rcases swapInqueue_ok hok with rfl | ⟨pmp, rfl⟩
  · exact ⟨fun _ _ => rfl, fun _ => rfl⟩
  · constructor
    · intro p hp
      rw [mproc_setProc_of_ne hp, mpFlags_setLink, mpFlags_setLink]
    · intro p
      by_cases hp : p = i
      · subst hp
        rw [mproc_setProc_self]
        show (((mm.setLink pmp (some p)).setLink (some p) none).mproc p).mpFlags.onswap = _
        rw [mpFlags_setLink, mpFlags_setLink]
      · rw [mproc_setProc_of_ne hp, mpFlags_setLink, mpFlags_setLink]

/-- The processes that `swap_off` may move: those on swap and on the queue, and those that make
room for them. -/
def movers (mm : Mm) : Finset (Fin nrProcs) :=
  Finset.univ.filter fun p => (mm.mproc p).mpFlags.swappable ∨ (mm.mproc p).mpFlags.onswap ∨
    (mm.mproc p).mpFlags.swapin

/-- A mover can be swapped out, is on swap, or is on the queue. -/
theorem mem_movers {p : Fin nrProcs} : p ∈ mm.movers ↔ (mm.mproc p).mpFlags.swappable ∨
    (mm.mproc p).mpFlags.onswap ∨ (mm.mproc p).mpFlags.swapin := by
  rw [movers, Finset.mem_filter, and_iff_right (Finset.mem_univ p)]

/-- While processes are queued the hole list, the images and the settings stay, and the processes
that may move are still in `live`. -/
theorem queueSwapped_frame {procs : List (Fin nrProcs)} (hmov : mm.Movable live)
    (hlive : ∀ p, (mm.mproc p).mpFlags.onswap → p ∈ live)
    (hok : queueSwapped procs mm = .ok mm') :
    mm'.table = mm.table ∧ mm'.settings = mm.settings ∧ (∀ p, mm'.image p = mm.image p) ∧
      mm'.Movable live := by
  induction procs generalizing mm with
  | nil =>
      obtain rfl : mm = mm' := Except.ok.inj hok
      exact ⟨rfl, rfl, fun _ => rfl, hmov⟩
  | cons i procs ih =>
      rw [queueSwapped] at hok
      by_cases hi : (mm.mproc i).mpFlags.onswap
      · rw [if_pos hi] at hok
        obtain ⟨mm₁, hqueue, hok⟩ := exists_of_bind hok
        obtain ⟨htable, hsettings, himage⟩ := swapInqueue_frame hqueue
        obtain ⟨hother, honswap⟩ := swapInqueue_flags hqueue
        have hmov₁ : mm₁.Movable live := by
          intro p hp
          by_cases hpi : p = i
          · exact hpi ▸ hlive i hi
          · rw [hother p hpi] at hp
            exact hmov p hp
        have hlive₁ : ∀ p, (mm₁.mproc p).mpFlags.onswap → p ∈ live := by
          intro p hp
          rw [honswap] at hp
          exact hlive p hp
        obtain ⟨htable', hsettings', himage', hmov'⟩ := ih hmov₁ hlive₁ hok
        exact ⟨htable'.trans htable, hsettings'.trans hsettings,
          fun p => (himage' p).trans (himage p), hmov'⟩
      · rw [if_neg hi] at hok
        exact ih hmov hlive hok

/-- Swapping is on, the hole table is valid, and the images of the processes that `swap_off` may
move are apart from each other and from the holes. -/
structure Swapping (mm : Mm) (hs fs : List (Fin nrHoles)) : Prop where
  on : mm.swapFd ≠ -1
  valid : mm.table.Valid mm.swapBase hs fs
  territory : Territory fun x => cover (mm.table.extents hs) x + mm.held mm.movers x

/-- The state in which `swap_off` asks whether all are in memory: it has a hole list in ascending
order, and the variables of the swap area are as before. -/
theorem Swapping.after (h : mm.Swapping hs fs) (hqueue : queueSwapped userProcs mm = .ok mm₀)
    (hin : mm₀.swapIn = .ok mm₁) :
    (∃ hs₁ fs₁, mm₁.table.Slots hs₁ fs₁ ∧ Coalesced (mm₁.table.extents hs₁)) ∧
      mm₁.settings = mm.settings := by
  have hmov : mm.Movable mm.movers := by
    intro p hp
    rw [mem_movers]
    tauto
  have hlive : ∀ p, (mm.mproc p).mpFlags.onswap → p ∈ mm.movers := fun p hp =>
    mem_movers.mpr (Or.inr (Or.inl hp))
  obtain ⟨htable, hsettings, himage, hmov₀⟩ := queueSwapped_frame hmov hlive hqueue
  have hholds : mm.Holds mm.movers fun x => cover (mm.table.extents hs) x + mm.held mm.movers x :=
    ⟨_, h.valid.represents, h.valid.coalesced, fun _ => rfl⟩
  have hholds₀ := hholds.congr htable fun p _ => himage p
  obtain ⟨-, T', ⟨m, ⟨hs₁, fs₁, hslots, rfl⟩, hm, -⟩, -⟩ :=
    swapIn_holds h.territory hholds₀ hmov₀ hin
  exact ⟨⟨hs₁, fs₁, hslots, hm⟩, (swapIn_settings hin).trans hsettings⟩

/-! ### `swap_off` -/

/-- All in memory: no process of a slot from `LOW_USER` on is on swap. -/
def AllIn (mm : Mm) : Prop :=
  ∀ p : Fin nrProcs, lowUser ≤ p.val → (mm.mproc p).mpFlags.onswap = false

instance (mm : Mm) : Decidable mm.AllIn :=
  inferInstanceAs (Decidable (∀ p : Fin nrProcs, lowUser ≤ p.val → _))

/-- The swap area is gone, and nothing else: the holes below `swap_base` are the same, each removed
entry is on `free_slots` once, and there is no swap file. -/
structure Removes (mm mm' : Mm) : Prop where
  frame : mm' = { mm with table := mm'.table, swapFd := -1 }
  holes : ∃ hs fs hs' fs', mm.table.Slots hs fs ∧ mm'.table.Slots hs' fs' ∧
    (∀ i ∈ hs', (mm'.table.hole i).hBase < mm'.swapBase) ∧
    mm'.table.extents hs' = (mm.table.extents hs).filter (fun e => e.base < mm.swapBase.toNat) ∧
    ∀ i ∈ hs, mm.swapBase ≤ (mm.table.hole i).hBase → fs'.count i = 1

/-- What `swap_off` should do, when `mm₁` is the state after its `swap_in`. It returns `OK` without
the swap area, or `ENOMEM` with the state left as it is. -/
structure TurnsOff (mm mm₁ : Mm) : Prop where
  off : mm₁.AllIn → ∃ mm', mm.swapOff = .ok (.ok, mm') ∧ mm₁.Removes mm'
  stays : ¬ mm₁.AllIn → mm.swapOff = .ok (.enomem, mm₁) ∧ mm₁.swapFd = mm.swapFd

/-- The loop of `swap_off` that looks for a process on swap finds one just when not all of them are
in memory. -/
theorem any_userProcs :
    (userProcs.any fun i => (mm.mproc i).mpFlags.onswap) = true ↔ ¬ mm.AllIn := by
  simp [userProcs, AllIn]

/-- When a process is still on swap, `swap_off` gives up with `ENOMEM`, and the state is the one
after `swap_in`. -/
theorem swapOff_of_not_allIn (hon : mm.swapFd ≠ -1) (hqueue : queueSwapped userProcs mm = .ok mm₀)
    (hin : mm₀.swapIn = .ok mm₁) (hout : ¬ mm₁.AllIn) : mm.swapOff = .ok (.enomem, mm₁) := by
  rw [swapOff, if_neg hon, hqueue]
  simp only [bind, Except.bind, hin]
  rw [if_pos (any_userProcs.mpr hout)]
  rfl

/-- When all processes are in memory, what is left of `swap_off` is the loop that removes the swap
holes. -/
theorem swapOff_of_allIn (hon : mm.swapFd ≠ -1) (hqueue : queueSwapped userProcs mm = .ok mm₀)
    (hin : mm₀.swapIn = .ok mm₁) (hall : mm₁.AllIn) :
    mm.swapOff = (mm₁.table.removeSwapHole mm₁.swapBase ((nrHoles + 1) * nrHoles) none
      mm₁.table.holeHead).map fun table => (.ok, { mm₁ with table := table, swapFd := -1 }) := by
  rw [swapOff, if_neg hon, hqueue]
  simp only [bind, Except.bind, hin]
  rw [if_neg (any_userProcs.not.mpr (not_not.mpr hall))]
  cases mm₁.table.removeSwapHole mm₁.swapBase ((nrHoles + 1) * nrHoles) none
    mm₁.table.holeHead <;> rfl

/-- The holes below `swap_base`, and the ones of the swap area behind them. -/
theorem exists_split_swapBase (hm : Coalesced (mm.table.extents hs)) :
    ∃ low high, hs = low ++ high ∧ (∀ i ∈ low, (mm.table.hole i).hBase < mm.swapBase) ∧
      ∀ i ∈ high, mm.swapBase ≤ (mm.table.hole i).hBase := by
  obtain ⟨low, high, hsplit, hlow, hhigh⟩ :=
    HoleTable.exists_split_base mm.swapBase hs hm.gap
  exact ⟨low, high, hsplit, hlow, fun i hi => UInt32.not_lt.mp (hhigh i hi)⟩

/-- Without a swap hole at the head, the removal is what `swap_off` is for. -/
theorem removes_of_head (hslots : mm.table.Slots hs fs) (hm : Coalesced (mm.table.extents hs))
    (hhead : ∀ i, mm.table.holeHead = some i → (mm.table.hole i).hBase < mm.swapBase) :
    ∃ table, mm.table.removeSwapHole mm.swapBase ((nrHoles + 1) * nrHoles) none mm.table.holeHead
        = .ok table ∧ mm.Removes { mm with table := table, swapFd := -1 } := by
  obtain ⟨low, high, rfl, hlow, hhigh⟩ := exists_split_swapBase hm
  have hfirst : low = [] → high = [] := by
    rintro rfl
    cases high with
    | nil => rfl
    | cons i high =>
        exact absurd (hhead i hslots.holes.1) (UInt32.not_lt.mpr (hhigh i List.mem_cons_self))
  obtain ⟨table, hok, hslots', hext⟩ := HoleTable.removeSwapHole_ok hslots hlow hhigh hfirst
  refine ⟨table, hok, rfl, low ++ high, fs, low, high.reverse ++ fs, hslots, hslots', ?_, ?_, ?_⟩
  · intro i hi
    show (table.hole i).hBase < mm.swapBase
    rw [HoleTable.hBase_congr hext]
    exact hlow i hi
  · show table.extents low = _
    rw [HoleTable.extents_filter_below hlow fun i hi => UInt32.not_lt.mpr (hhigh i hi)]
    exact HoleTable.extents_congr fun i _ => congrFun hext i
  · intro i hi hbase
    have hmem : i ∈ high := by
      rcases List.mem_append.mp hi with hi | hi
      · exact absurd (hlow i hi) (UInt32.not_lt.mpr hbase)
      · exact hi
    have hnd : (high.reverse ++ fs).Nodup := (List.nodup_append.mp hslots'.nodup).2.1
    exact List.count_eq_one_of_mem hnd (List.mem_append_left fs (List.mem_reverse.mpr hmem))

/-- A swap hole at the head makes the removal go wrong. -/
theorem not_removes_of_head (hslots : mm.table.Slots hs fs) (hm : Coalesced (mm.table.extents hs))
    {i : Fin nrHoles} (hhead : mm.table.holeHead = some i)
    (hi : mm.swapBase ≤ (mm.table.hole i).hBase) {table : HoleTable nrHoles}
    (hok : mm.table.removeSwapHole mm.swapBase ((nrHoles + 1) * nrHoles) none mm.table.holeHead
      = .ok table) : ¬ mm.Removes { mm with table := table, swapFd := -1 } := by
  obtain ⟨low, high, rfl, hlow, hhigh⟩ := exists_split_swapBase hm
  have hnil : low = [] := by
    cases low with
    | nil => rfl
    | cons a low =>
        have ha : a = i := Option.some.inj (hslots.holes.1.symm.trans hhead)
        exact absurd (hlow a List.mem_cons_self) (UInt32.not_lt.mpr (ha ▸ hi))
  subst hnil
  rw [List.nil_append] at hslots
  match high, hslots, hhigh with
  | [], hslots, _ =>
      rw [show mm.table.holeHead = none from hslots.holes] at hhead
      cases hhead
  | [a], hslots, hhigh =>
      rw [HoleTable.removeSwapHole_single hslots (hhigh a List.mem_cons_self)] at hok
      cases hok
  | a :: b :: high, hslots, hhigh =>
      obtain ⟨table', hok', hslots', hext⟩ := HoleTable.removeSwapHole_cons hslots hhigh
      obtain rfl : table' = table := Except.ok.inj (hok'.symm.trans hok)
      rintro ⟨-, _, _, hs', fs', -, hslots'', hbelow, -⟩
      obtain ⟨rfl, -⟩ := HoleTable.Slots.unique hslots'' hslots'
      -- The hole `b` is still there.
      have hb : (table'.hole b).hBase < mm.swapBase := hbelow b List.mem_cons_self
      rw [HoleTable.hBase_congr hext] at hb
      exact absurd hb (UInt32.not_lt.mpr (hhigh b (by simp)))

end Mm

/-- `swap_off` with swapping on, where `mm₁` is the state after its `swap_in`. It does what it
should exactly when some process is still on swap, or there is no hole, or the first hole is below
`swap_base`. -/
theorem turnsOff_iff (mm mm₀ mm₁ : Mm) (hs fs : List (Fin nrHoles)) (h : mm.Swapping hs fs)
    (hqueue : Mm.queueSwapped Mm.userProcs mm = .ok mm₀) (hin : mm₀.swapIn = .ok mm₁) :
    mm.TurnsOff mm₁ ↔
      ¬ mm₁.AllIn ∨ ∀ i, mm₁.table.holeHead = some i → (mm₁.table.hole i).hBase < mm₁.swapBase := by
  obtain ⟨⟨hs₁, fs₁, hslots, hm⟩, hsettings⟩ := h.after hqueue hin
  constructor
  · intro hturns
    by_contra hbad
    rw [not_or, not_not] at hbad
    obtain ⟨hall, hhead⟩ := hbad
    simp only [not_forall, UInt32.not_lt, exists_prop] at hhead
    obtain ⟨i, hhead, hi⟩ := hhead
    obtain ⟨mm', hok, hremoves⟩ := hturns.off hall
    rw [Mm.swapOff_of_allIn h.on hqueue hin hall] at hok
    cases hrun : mm₁.table.removeSwapHole mm₁.swapBase ((nrHoles + 1) * nrHoles) none
        mm₁.table.holeHead with
    | error e =>
        rw [hrun] at hok
        cases hok
    | ok table =>
        rw [hrun] at hok
        cases hok
        exact Mm.not_removes_of_head hslots hm hhead hi hrun hremoves
  · intro hgood
    constructor
    · intro hall
      have hhead := hgood.resolve_left (not_not.mpr hall)
      obtain ⟨table, hrun, hremoves⟩ := Mm.removes_of_head hslots hm hhead
      refine ⟨_, ?_, hremoves⟩
      rw [Mm.swapOff_of_allIn h.on hqueue hin hall, hrun]
      rfl
    · intro hout
      exact ⟨Mm.swapOff_of_not_allIn h.on hqueue hin hout, congrArg Prod.fst hsettings⟩

/-- Every reachable state with swapping on is such a state, when the processes that `swap_off` may
move are live. -/
theorem Sys.Inv.swapping {s : Sys} (h : s.Inv) (hgap : s.Gap) (hon : s.mm.swapFd ≠ -1)
    (hlive : s.mm.movers ⊆ s.live) : ∃ hs fs, s.mm.Swapping hs fs := by
  obtain ⟨hs, fs, hvalid, -⟩ := h.valid hgap
  refine ⟨hs, fs, hon, hvalid, (h.territory hvalid.represents).mono fun x => ?_⟩
  have hheld : s.mm.held s.mm.movers x ≤ s.mm.held s.live x :=
    Finset.sum_le_sum_of_subset hlive
  omega

end

section
attribute [local instance] tinyConfig

/-- The memory is allocated and swapping is on: the swap hole is the only one. -/
theorem tinyFull_swapping : ∃ hs fs, tinyFull.mm.Swapping hs fs := by
  obtain ⟨hinv, hgap⟩ := inv_of_booted tinyChunks_ok tinyBoot_booted tinyFull_reached
  have hmovers : tinyFull.mm.movers = ∅ := by decide
  exact hinv.swapping hgap (by decide) (hmovers ▸ Finset.empty_subset _)

/-- Nobody is on swap, and `swap_off` does not return. -/
theorem not_turnsOff_tinyFull :
    Sys.Reaches tinyBoot tinyFull ∧ (∃ hs fs, tinyFull.mm.Swapping hs fs) ∧
      Mm.queueSwapped Mm.userProcs tinyFull.mm = .ok tinyFull.mm ∧
      tinyFull.mm.swapIn = .ok tinyFull.mm ∧ tinyFull.mm.AllIn ∧
      tinyFull.mm.swapOff = .error .nilHole ∧ ¬ tinyFull.mm.TurnsOff tinyFull.mm := by
  have hall : tinyFull.mm.AllIn := by decide
  have hfault : tinyFull.mm.swapOff = .error .nilHole := rfl
  refine ⟨tinyFull_reached, tinyFull_swapping, rfl, rfl, hall, hfault, ?_⟩
  intro hturns
  obtain ⟨mm', hok, -⟩ := hturns.off hall
  rw [hfault] at hok
  cases hok

/-- The first hole is in memory, so that `swap_off` does what it should. -/
theorem turnsOff_iff_tiny : tinyPart.mm.TurnsOff tinyPart.mm := by
  obtain ⟨hinv, hgap⟩ := inv_of_booted tinyChunks_ok tinyBoot_booted tinyPart_reached
  have hmovers : tinyPart.mm.movers = ∅ := by decide
  obtain ⟨hs, fs, hswapping⟩ := hinv.swapping hgap (by decide) (hmovers ▸ Finset.empty_subset _)
  refine (turnsOff_iff tinyPart.mm tinyPart.mm tinyPart.mm hs fs hswapping rfl rfl).mpr (Or.inr ?_)
  intro i hi
  have hhead : tinyPart.mm.table.holeHead = some ⟨1, by decide⟩ := rfl
  obtain rfl := Option.some.inj (hi.symm.trans hhead)
  decide

end

end Soi.Pamiec
