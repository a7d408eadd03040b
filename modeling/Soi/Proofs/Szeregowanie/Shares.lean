import Mathlib.Algebra.Ring.Int.Defs
import Mathlib.Tactic.LinearCombination
import Mathlib.Tactic.Ring
import Soi.Proofs.Szeregowanie.Calls
import Soi.Proofs.Szeregowanie.Rounds

/-!
# `Soi.Proofs.Szeregowanie.Shares`: what the two groups get

`set_scheduler` promises `x` percent of the time to the group A. In whole rounds over the queue a
group gets its quantum for each of its processes (`groupCalls_rounds`), so that the promise is about
two processes, one of each group. The groups get `x` and `100 - x` percent just when they have
equally many processes (`shares_of_run`).
-/

set_option autoImplicit false

namespace Soi.Szeregowanie.Kernel

/-- The calls of `sched` in the turns of the processes of a group, where a turn is its process and
its calls. -/
def callsOf (k : Kernel) (group : Group) (turns : List (Int × Int)) : Int :=
  ((turns.filter fun t => (k.proc t.1).pGroup = group).map Prod.snd).sum

/-- The calls of `sched` that a group has got. -/
def groupCalls (k : Kernel) (group : Group) (turns : List Turn) : Int :=
  k.callsOf group (turns.map fun t => (t.process, (t.calls : Int)))

/-- How many processes of the queue are in the group. -/
def members (k : Kernel) (group : Group) (l : List Int) : Nat :=
  l.countP fun i => (k.proc i).pGroup = group

section
variable {k k' : Kernel} {group : Group} {l : List Int}

/-- The calls of a group in two parts of a list of turns. -/
theorem callsOf_append (ts ts' : List (Int × Int)) :
    k.callsOf group (ts ++ ts') = k.callsOf group ts + k.callsOf group ts' := by
  rw [callsOf, List.filter_append, List.map_append, List.sum_append]
  rfl

/-- One round. -/
theorem callsOf_round (l : List Int) : k.callsOf group (l.map fun i => (i, k.share i))
    = k.members group l * k.procTime group := by
  induction l with
  | nil =>
      show (0 : Int) = 0 * k.procTime group
      rw [zero_mul]
  | cons i l ih =>
      rw [List.map_cons, callsOf, List.filter_cons, members, List.countP_cons]
      rw [callsOf, members] at ih
      by_cases hi : (k.proc i).pGroup = group
      · have hshare : k.share i = k.procTime group := by rw [share, hi]
        simp only [hi, decide_true, if_true, List.map_cons, List.sum_cons, ih, hshare]
        rw [Nat.cast_add, Nat.cast_one]
        ring
      · simp only [hi, decide_false, Bool.false_eq_true, if_false, ih, Nat.add_zero]

/-- Any number of rounds. -/
theorem callsOf_rounds (m : Nat) (l : List Int) :
    k.callsOf group (List.replicate m (l.map fun i => (i, k.share i))).flatten
      = m * (k.members group l * k.procTime group) := by
  induction m with
  | zero =>
      show (0 : Int) = 0 * _
      rw [zero_mul]
  | succ m ih =>
      rw [List.replicate_succ, List.flatten_cons, callsOf_append, ih, callsOf_round, Nat.cast_add,
        Nat.cast_one]
      ring

/-- The percentage of the group A is the promised one just when the groups are equally large. -/
theorem percent_iff {m a b : Nat} {x : Int} (hm : 1 ≤ m) (hx : 1 ≤ x ∧ x ≤ 99) :
    100 * (m * (a * x)) = x * (m * (a * x) + m * (b * (100 - x))) ↔ a = b := by
  constructor
  · intro heq
    -- What is left of the equation, over `m`, `x` and `100 - x`.
    have hzero : (m : Int) * x * (100 - x) * ((a : Int) - b) = 0 := by
      linear_combination heq
    have hpos : (m : Int) * x * (100 - x) ≠ 0 := by
      refine mul_ne_zero (mul_ne_zero ?_ ?_) ?_
      · exact_mod_cast Nat.one_le_iff_ne_zero.mp hm
      · omega
      · omega
    have hdiff := (mul_eq_zero.mp hzero).resolve_left hpos
    omega
  · rintro rfl
    ring

/-- Proportions in 1..99 keep the sum of the quanta. -/
theorem watch_quanta {log log' : Log} {calls : List Call} (h : k.Quanta)
    (hcalls : ∀ call ∈ calls, Allowed call) (hwatch : k.watch log calls = some (k', log')) :
    k'.Quanta := by
  induction calls generalizing k log with
  | nil =>
      cases hwatch
      exact h
  | cons call calls ih =>
      obtain ⟨hcall, hcalls⟩ := List.forall_mem_cons.mp hcalls
      obtain ⟨mid, hstep, hwatch⟩ := exists_of_watch_cons hwatch
      refine ih ?_ hcalls hwatch
      cases call with
      | fork proc1 proc2 pid => exact hcall.elim
      | setsched caller x =>
          have hsensible : k.Sensible (.setsched caller x) := fun _ => hcall
          exact step_quanta h (by simp) hsensible hstep
      | chgroup caller =>
          have hsensible : k.Sensible (.chgroup caller) := trivial
          exact step_quanta h (by simp) hsensible hstep
      | sched =>
          have htime := (sched_sameGroups hstep).procTime
          exact ⟨htime ▸ h.range, htime ▸ h.sum⟩

/-- When each process has ended a turn in which there were only calls of `sched`, the queue is
ready. -/
theorem ready_of_settled {k₀ k₁ : Kernel} {l₀ : List Int} {fork : Int → Int} {log log₁ : Log}
    {pre : List Call} {n : Nat} (hq : k₀.UserQ l₀) (hrange : k₀.InRange)
    (hfork : ∀ i ∈ l₀, k₀.Forked i (fork i)) (hpre : ∀ call ∈ pre, Allowed call)
    (hwatch₁ : k₀.watch Log.empty pre = some (k₁, log₁))
    (hwatch : k₁.watch log₁ (List.replicate n .sched) = some (k, log)) (hover : log.calls = 0)
    (hsettled : ∀ a ∈ l₀, Settled log₁.turns log.turns a) : ∃ l, l.Perm l₀ ∧ k.Ready l := by
  obtain ⟨k₁', log₁', n₁, hwatch₁', -, hwatched₁⟩ :=
    watch_watched (watched_forked hq hrange hfork) hpre
  obtain ⟨rfl, rfl⟩ := Prod.mk.inj (Option.some.inj (hwatch₁'.symm.trans hwatch₁))
  obtain ⟨n, -, hready⟩ := hwatched₁.ready_of_settled hwatch hover fun a ha =>
    hsettled a (List.mem_rotate.mp ha)
  rw [List.rotate_rotate] at hready
  exact ⟨l₀.rotate (n₁ + n), List.rotate_perm l₀ _, hready⟩

end

/-- Processes are forked, and set their proportions and groups, in any order. Then there are only
calls of `sched`, until each process has ended a turn other than its first one. From then on, in
any number of whole rounds, each group gets its quantum for each of its processes. The group A gets
the percentage that `set_scheduler` has promised just when the groups have equally many
processes. -/
theorem shares_of_run (k₀ : Kernel) (l₀ : List Int) (fork : Int → Int) (hq : k₀.UserQ l₀)
    (hquanta : k₀.Quanta) (hfork : ∀ i ∈ l₀, k₀.Forked i (fork i)) (pre : List Call)
    (hpre : ∀ call ∈ pre, Allowed call) (k₁ k : Kernel) (log₁ log : Log) (n : Nat)
    (hwatch₁ : k₀.watch Log.empty pre = some (k₁, log₁))
    (hwatch : k₁.watch log₁ (List.replicate n .sched) = some (k, log)) (hover : log.calls = 0)
    (hsettled : ∀ a ∈ l₀, Settled log₁.turns log.turns a) (m : Nat) (hm : 1 ≤ m) :
    ∃ l k' log', l.Perm l₀ ∧ k.watch Log.empty
        (List.replicate (m * (l.map fun i => (k.share i).toNat).sum) .sched) = some (k', log') ∧
      k'.UserQ l ∧ k.SameShares k' ∧
      (∀ group, k.groupCalls group log'.turns = m * (k.members group l * k.procTime group)) ∧
      (100 * k.groupCalls .groupA log'.turns = k.procTime .groupA *
          (k.groupCalls .groupA log'.turns + k.groupCalls .groupB log'.turns)
        ↔ k.members .groupA l = k.members .groupB l) := by
  obtain ⟨l, hperm, hready⟩ := ready_of_settled hq hquanta.range hfork hpre hwatch₁ hwatch hover
    hsettled
  obtain ⟨k', log', hrounds, hturns, -, hq', hsame⟩ := hready.rounds m
  have hcalls : ∀ group,
      k.groupCalls group log'.turns = m * (k.members group l * k.procTime group) := by
    intro group
    rw [groupCalls, hturns, callsOf_rounds]
  have hquanta' : k.Quanta := by
    refine watch_quanta (watch_quanta hquanta hpre hwatch₁) ?_ hwatch
    intro call hcall
    rw [List.eq_of_mem_replicate hcall]
    trivial
  -- `set_scheduler` writes both quanta, so that they add up to 100.
  have hB : k.procTime .groupB = 100 - k.procTime .groupA := by
    have := hquanta'.sum
    omega
  refine ⟨l, k', log', hperm, hrounds, hq', hsame, hcalls, ?_⟩
  rw [hcalls, hcalls, hB]
  exact percent_iff hm (hquanta'.range .groupA)

/-- Both have had two turns. -/
def shortSettled : Kernel × Log :=
  match shortKernel.watch Log.empty (List.replicate 4 .sched) with
  | none => (shortKernel, Log.empty)
  | some s => s

/-- Three rounds, from a settled state on. -/
theorem shares_of_run_short : ∃ l k' log', l.Perm [0, 1] ∧
    shortSettled.1.watch Log.empty
      (List.replicate (3 * (l.map fun i => (shortSettled.1.share i).toNat).sum) .sched)
        = some (k', log') ∧
    ∀ group, shortSettled.1.groupCalls group log'.turns
      = 3 * (shortSettled.1.members group l * shortSettled.1.procTime group) := by
  have hquanta : shortKernel.Quanta := ⟨tinyKernel_inv.quanta.range, rfl⟩
  have hsettled : ∀ a ∈ [0, 1], Settled Log.empty.turns shortSettled.2.turns a := by
    intro a ha
    rcases List.mem_cons.mp ha with rfl | ha
    · exact ⟨List.ne_nil_of_length_pos (by decide), by decide⟩
    · rw [List.mem_singleton.mp ha]
      exact ⟨List.ne_nil_of_length_pos (by decide), by decide⟩
  obtain ⟨l, k', log', hperm, hwatch, -, -, hcalls, -⟩ := shares_of_run shortKernel [0, 1]
    (fun _ => 1) ⟨⟨rfl, rfl, rfl⟩, fun _ => rfl⟩ hquanta shortKernel_forked [] (by simp)
    shortKernel shortSettled.1 Log.empty shortSettled.2 4 rfl rfl rfl hsettled 3 (by decide)
  exact ⟨l, k', log', hperm, hwatch, hcalls⟩

end Soi.Szeregowanie.Kernel
