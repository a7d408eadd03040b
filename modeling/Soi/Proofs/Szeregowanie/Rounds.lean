import Soi.Proofs.Szeregowanie.Turns

/-!
# `Soi.Proofs.Szeregowanie.Rounds`: the rounds over the queue, and the quanta of all turns

When there are only calls of `sched`, the quanta and the groups stay, and a process that has ended a
turn has the quantum of its group in `p_ticks` (`Watched.ready`). Then each turn is as long as this
quantum (`watch_turn`), the turns of the queue one after the other are a round (`watch_part`), and
the next round is the same (`Ready.rounds`). Two turns of each process are enough for that
(`Watched.settles`). `turns_exact` puts the turns and the rounds together.
-/

set_option autoImplicit false

namespace Soi.Szeregowanie.Kernel

/-- What `PROC_TIME` holds for the group of the process `i`. -/
def share (k : Kernel) (i : Int) : Int := k.procTime (k.proc i).pGroup

/-- The quanta and the groups are the same. -/
structure SameShares (k k' : Kernel) : Prop where
  procTime : k'.procTime = k.procTime
  group : ∀ i, (k'.proc i).pGroup = (k.proc i).pGroup

/-- All processes of the queue have had their first turn, and their ticks are those of their
group. -/
structure Ready (k : Kernel) (l : List Int) : Prop where
  userQ : k.UserQ l
  first : ∀ i ∈ l, (k.proc i).pFirst ≠ 1
  ticks : ∀ i ∈ l, (k.proc i).pTicks = k.share i
  pos : ∀ i ∈ l, 1 ≤ k.share i

/-- The process `a` has ended a turn after the turns `old`, and that was not its first one. -/
def Settled (old turns : List Turn) (a : Int) : Prop :=
  turnsOf (turns.drop old.length) a ≠ [] ∧ 2 ≤ (turnsOf turns a).length

/-- In each of any number of rounds every process of the queue gets, in its turn, the calls of
`sched` that `PROC_TIME` holds for its group. -/
def Rounds (k : Kernel) (l : List Int) : Prop :=
  ∀ m, ∃ k' log', k.watch Log.empty
      (List.replicate (m * (l.map fun i => (k.share i).toNat).sum) .sched) = some (k', log') ∧
    (log'.turns.map fun t => (t.process, (t.calls : Int)))
      = (List.replicate m (l.map fun i => (i, k.share i))).flatten ∧
    log'.calls = 0 ∧ k'.UserQ l ∧ k.SameShares k'

section
variable {k k' : Kernel} {log log' : Log} {a : Int} {l l₁ l₂ : List Int} {m : Nat}
  {old new : List Turn} {fork : Int → Int}

/-- Nothing changes. -/
theorem SameShares.refl (k : Kernel) : k.SameShares k := ⟨rfl, fun _ => rfl⟩

/-- Two changes that keep the shares. -/
theorem SameShares.trans {k'' : Kernel} (h : k.SameShares k') (h' : k'.SameShares k'') :
    k.SameShares k'' :=
  ⟨h'.procTime.trans h.procTime, fun i => (h'.group i).trans (h.group i)⟩

/-- With the same quanta and the same groups each process has the same share. -/
theorem SameShares.share_eq (h : k.SameShares k') (i : Int) : k'.share i = k.share i := by
  rw [share, share, h.procTime, h.group]

/-- A call of `sched` writes neither a quantum nor a group. -/
theorem WritesHead.sameShares (h : k.WritesHead a k') : k.SameShares k' := by
  refine ⟨h.procTime, ?_⟩
  intro i
  by_cases hi : i = a
  · obtain ⟨first, ticks, next, ha⟩ := h.head
    rw [hi, ha]
  · obtain ⟨next, hproc⟩ := h.other i hi
    rw [hproc]

/-! ### Only calls of `sched` -/

/-- A call of `sched` and the log. A turn that is over has the quantum of its process. -/
theorem sched_note (log : Log) (h : k.UserQ l) (hsched : k.sched = some k') :
    k.SameShares k' ∧ (∃ l', k'.UserQ l') ∧ ∃ new,
      (log.note k .sched k').turns = log.turns ++ new ∧
      ∀ t ∈ new, t.quantum = k.share t.process := by
  cases l with
  | nil =>
      obtain rfl := Option.some.inj ((sched_nil h).symm.trans hsched)
      refine ⟨SameShares.refl k, ⟨[], h⟩, [], ?_, by simp⟩
      rw [note_nil h.seg, List.append_nil]
  | cons a l =>
      obtain ⟨k₁, hsched', hwrites, hturn, hstay⟩ := sched_userQ h
      obtain rfl := Option.some.inj (hsched'.symm.trans hsched)
      by_cases hlast : k.LastTurn a
      · refine ⟨hwrites.sameShares, ⟨l ++ [a], hturn hlast⟩, [⟨a, log.calls + 1, k, k₁⟩],
          ?_, ?_⟩
        · rw [note_turn h.seg.1 hlast]
        · intro t ht
          rw [List.mem_singleton.mp ht]
          rfl
      · refine ⟨hwrites.sameShares, ⟨a :: l, hstay hlast⟩, [], ?_, by simp⟩
        rw [note_stay h.seg.1 hlast, List.append_nil]

/-- In a run of calls of `sched` the shares stay, and each turn that ends is given a new quantum,
the share of its process. -/
theorem watch_sched (h : k.UserQ l)
    (hwatch : k.watch log (List.replicate m .sched) = some (k', log')) :
    k.SameShares k' ∧ ∃ new, log'.turns = log.turns ++ new ∧
      ∀ t ∈ new, t.quantum = k.share t.process := by
  induction m generalizing k log l with
  | zero =>
      cases hwatch
      exact ⟨SameShares.refl _, [], (List.append_nil _).symm, by simp⟩
  | succ m ih =>
      rw [List.replicate_succ] at hwatch
      obtain ⟨mid, hstep, hwatch⟩ := exists_of_watch_cons hwatch
      obtain ⟨hsame, ⟨l', hq⟩, new, hnote, hnew⟩ := sched_note log h hstep
      obtain ⟨hsame', new', hnote', hnew'⟩ := ih hq hwatch
      refine ⟨hsame.trans hsame', new ++ new', ?_, ?_⟩
      · rw [hnote', hnote, List.append_assoc]
      · intro t ht
        rcases List.mem_append.mp ht with ht | ht
        · exact hnew t ht
        · rw [hnew' t ht, hsame.share_eq]

/-- The turns of a process in two parts of a log. -/
theorem turnsOf_append (ts ts' : List Turn) (a : Int) :
    turnsOf (ts ++ ts') a = turnsOf ts a ++ turnsOf ts' a := List.filter_append _ _

/-- A process that has ended a turn since then has the quantum of its group. -/
theorem granted_settled {q : Int} (hnew : ∀ t ∈ new, t.quantum = k.share t.process)
    (hsettled : Settled old (old ++ new) a) :
    turnsOf (old ++ new) a ≠ [] ∧ granted q (turnsOf (old ++ new) a) = k.share a := by
  obtain ⟨hsince, htwo⟩ := hsettled
  rw [List.drop_left] at hsince
  rw [turnsOf_append, List.length_append] at htwo
  rw [turnsOf_append]
  rcases List.eq_nil_or_concat' (turnsOf new a) with hnil | ⟨ts, t, hts⟩
  · exact absurd hnil hsince
  · have ht : t ∈ new ∧ t.process = a := by
      have hmem : t ∈ turnsOf new a := by
        rw [hts]
        exact List.mem_append_right ts (List.mem_singleton_self t)
      simpa [turnsOf] using hmem
    rw [hts, ← List.append_assoc]
    have hne : turnsOf old a ++ ts ≠ [] := by
      intro hnil
      rw [hts, List.length_append, ← Nat.add_assoc, ← List.length_append, hnil] at htwo
      exact absurd htwo (by simp)
    refine ⟨by simp, ?_⟩
    rw [granted_concat hne, hnew t ht.1, ht.2]

/-- At the end of a turn all processes are ready once each of them has ended a turn since then. -/
theorem Watched.ready (h : Watched k ⟨old ++ new, 0⟩ fork l)
    (hnew : ∀ t ∈ new, t.quantum = k.share t.process)
    (hsettled : ∀ a ∈ l, Settled old (old ++ new) a) : k.Ready l := by
  have hstage : ∀ i ∈ l, Stage k (old ++ new) (fork i) i 0 := by
    intro i hi
    cases l with
    | nil => cases hi
    | cons a l =>
        rcases List.mem_cons.mp hi with rfl | hi
        · exact h.head i l rfl
        · exact h.behind i hi
  refine ⟨h.userQ, ?_, ?_, fun i _ => (h.range _).1⟩
  · intro i hi
    exact ((hstage i hi).later (granted_settled (q := fork i) hnew (hsettled i hi)).1).1
  · intro i hi
    obtain ⟨hne, hgranted⟩ := granted_settled (q := fork i) hnew (hsettled i hi)
    have hticks := ((hstage i hi).later hne).2
    rw [hgranted] at hticks
    exact (Int.add_zero _).symm.trans hticks

/-- A process that is in one pass over the queue and in the next one has ended a turn other than its
first one. -/
theorem settled_of_passes {new' : List Turn} (hnew : a ∈ new.map fun t => t.process)
    (hnew' : a ∈ new'.map fun t => t.process) : Settled old (old ++ new ++ new') a := by
  have hturns : ∀ ts : List Turn, a ∈ (ts.map fun t => t.process) → turnsOf ts a ≠ [] := by
    intro ts hmem
    obtain ⟨t, ht, hprocess⟩ := List.mem_map.mp hmem
    exact List.ne_nil_of_mem (List.mem_filter.mpr ⟨ht, decide_eq_true hprocess⟩)
  have hpos := List.length_pos_iff.mpr (hturns new hnew)
  have hpos' := List.length_pos_iff.mpr (hturns new' hnew')
  constructor
  · rw [List.append_assoc, List.drop_left, turnsOf_append]
    exact List.append_ne_nil_of_left_ne_nil (hturns new hnew) _
  · rw [turnsOf_append, turnsOf_append, List.length_append, List.length_append]
    omega

/-- After two passes over the queue, with at most 99 calls of `sched` for each turn, all processes
have ended a turn other than their first one. -/
theorem Watched.settles (h : Watched k log fork l) : ∃ m ≤ 198 * l.length, ∃ k' log',
    k.watch log (List.replicate m .sched) = some (k', log') ∧ log'.calls = 0 ∧
      ∀ a ∈ l, Settled log.turns log'.turns a := by
  have hidle := h.idle
  rw [← List.append_nil l] at h
  obtain ⟨m, hm, mid, new, hwatch, hnew, hmid⟩ := h.pass hidle
  rw [List.nil_append, ← List.append_nil l] at hmid
  obtain ⟨m', hm', k', new', hwatch', hnew', -⟩ := hmid.pass fun _ => rfl
  refine ⟨m + m', by omega, k', ⟨log.turns ++ new ++ new', 0⟩, ?_, rfl, ?_⟩
  · rw [List.replicate_add, watch_append hwatch]
    exact hwatch'
  · intro a ha
    exact settled_of_passes (hnew ▸ ha) (hnew' ▸ ha)

/-- With calls of `sched` only, the quanta that `PROC_TIME` holds for the groups stay. So at the end
of a turn the queue is ready, in its order at that time, when all processes have settled. -/
theorem Watched.ready_of_settled (h : Watched k log fork l)
    (hwatch : k.watch log (List.replicate m .sched) = some (k', log')) (hidle : log'.calls = 0)
    (hsettled : ∀ a ∈ l, Settled log.turns log'.turns a) :
    ∃ n, log'.turns.length = log.turns.length + n ∧ k'.Ready (l.rotate n) := by
  have hallowed : ∀ call ∈ List.replicate m Call.sched, Allowed call := by
    intro call hcall
    rw [List.eq_of_mem_replicate hcall]
    trivial
  obtain ⟨k₁, log₁, n, hwatch₁, hlength, hwatched⟩ := watch_watched h hallowed
  obtain ⟨rfl, rfl⟩ := Prod.mk.inj (Option.some.inj (hwatch₁.symm.trans hwatch))
  obtain ⟨hsame, new, hturns, hnew⟩ := watch_sched h.userQ hwatch
  obtain ⟨turns, used⟩ := log₁
  simp only at hidle hturns hsettled
  subst hidle hturns
  refine ⟨n, hlength, hwatched.ready ?_ ?_⟩
  -- The turns since then ended with the shares that are still there.
  · intro t ht
    rw [hnew t ht, hsame.share_eq]
  · intro a ha
    exact hsettled a (List.mem_rotate.mp ha)

/-! ### A turn and a round -/

/-- After a turn of the head the others are as before, and the process has its next ticks. -/
structure TurnOver (k : Kernel) (a : Int) (l : List Int) (k' : Kernel) : Prop where
  userQ : k'.UserQ (l ++ [a])
  sameShares : k.SameShares k'
  first : ∀ i, (k'.proc i).pFirst = (k.proc i).pFirst
  other : ∀ i ≠ a, (k'.proc i).pTicks = (k.proc i).pTicks
  ticks : (k'.proc a).pTicks = k.share a

/-- The call with the last tick of the head. -/
theorem sched_turnOver (h : k.UserQ (a :: l)) (hfirst : (k.proc a).pFirst ≠ 1)
    (hticks : (k.proc a).pTicks = 1) : ∃ k', k.sched = some k' ∧ k.TurnOver a l k' := by
  obtain ⟨k', hsched, hrotated⟩ := sched_over h hfirst hticks
  obtain ⟨next, hproc⟩ := hrotated.head
  refine ⟨k', hsched, hrotated.userQ, hrotated.writesHead.sameShares, ?_, ?_, ?_⟩
  · intro i
    by_cases hi : i = a
    · rw [hi, hproc]
    · obtain ⟨next, hproc⟩ := hrotated.other i hi
      rw [hproc]
  · intro i hi
    obtain ⟨next, hproc⟩ := hrotated.other i hi
    rw [hproc]
  · rw [hproc]
    rfl

/-- A tick before the turn is over makes no difference. -/
theorem TurnOver.of_tick {ticks : Int}
    (h : (k.setProc a { k.proc a with pTicks := ticks }).TurnOver a l k') : k.TurnOver a l k' := by
  have hsame : k.SameShares (k.setProc a { k.proc a with pTicks := ticks }) :=
    (writesHead_setProc ticks).sameShares
  refine ⟨h.userQ, hsame.trans h.sameShares, ?_, ?_, ?_⟩
  · intro i
    rw [h.first i]
    by_cases hi : i = a
    · rw [hi, setProc_proc_self]
    · rw [setProc_proc_of_ne _ hi]
  · intro i hi
    rw [h.other i hi, setProc_proc_of_ne _ hi]
  · rw [h.ticks, hsame.share_eq]

/-- A turn takes as many calls as the head has ticks. -/
theorem watch_turn (ts : List Turn) (c : Nat) (h : k.UserQ (a :: l))
    (hfirst : (k.proc a).pFirst ≠ 1) (hticks : (k.proc a).pTicks = m + 1) :
    ∃ k' before, k.watch ⟨ts, c⟩ (List.replicate (m + 1) .sched)
        = some (k', ⟨ts ++ [⟨a, c + (m + 1), before, k'⟩], 0⟩) ∧ k.TurnOver a l k' := by
  induction m generalizing k c with
  | zero =>
      have hone : (k.proc a).pTicks = 1 := hticks
      obtain ⟨k', hsched, hover⟩ := sched_turnOver h hfirst hone
      have hstep : k.step .sched = some k' := hsched
      refine ⟨k', k, ?_, hover⟩
      rw [List.replicate_one, watch_cons hstep, note_turn h.seg.1 (Or.inr hone)]
      rfl
  | succ m ih =>
      have hlast : ¬ k.LastTurn a := by
        rintro (hone | hone)
        · exact hfirst hone
        · omega
      have hstay := sched_stay h hlast
      set mid := k.setProc a { k.proc a with pTicks := (k.proc a).pTicks - 1 } with hmid
      have hstep : k.step .sched = some mid := hstay
      have hself : mid.proc a = { k.proc a with pTicks := (k.proc a).pTicks - 1 } :=
        setProc_proc_self a _
      obtain ⟨k', before, hwatch, hover⟩ := ih (k := mid) (c + 1) (h.setProc rfl)
        (by rw [hself]; exact hfirst) (by rw [hself]; show (k.proc a).pTicks - 1 = _; omega)
      refine ⟨k', before, ?_, hover.of_tick⟩
      rw [List.replicate_succ, watch_cons hstep, note_stay h.seg.1 hlast]
      show mid.watch ⟨ts, c + 1⟩ (List.replicate (m + 1) .sched) = _
      rw [hwatch, Nat.add_assoc c 1, Nat.add_comm 1]

/-- After the turn of the head the processes are ready, in the new order. -/
theorem TurnOver.ready (h : k.TurnOver a l k') (hready : k.Ready (a :: l)) :
    k'.Ready (l ++ [a]) := by
  have hmem : ∀ i ∈ l ++ [a], i ∈ a :: l := fun i hi =>
    (List.perm_append_singleton a l).mem_iff.mp hi
  refine ⟨h.userQ, ?_, ?_, ?_⟩
  · intro i hi
    rw [h.first]
    exact hready.first i (hmem i hi)
  · intro i hi
    rw [h.sameShares.share_eq]
    by_cases hia : i = a
    · rw [hia]
      exact h.ticks
    · rw [h.other i hia]
      exact hready.ticks i (hmem i hi)
  · intro i hi
    rw [h.sameShares.share_eq]
    exact hready.pos i (hmem i hi)

/-- The processes of `l₁` have their turns, one after the other. -/
theorem watch_part (ts : List Turn) (h : k.Ready (l₁ ++ l₂)) :
    ∃ k' new, k.watch ⟨ts, 0⟩
        (List.replicate (l₁.map fun i => (k.share i).toNat).sum .sched)
          = some (k', ⟨ts ++ new, 0⟩) ∧
      (new.map fun t => (t.process, (t.calls : Int))) = l₁.map (fun i => (i, k.share i)) ∧
      k'.Ready (l₂ ++ l₁) ∧ k.SameShares k' := by
  induction l₁ generalizing k l₂ ts with
  | nil =>
      refine ⟨k, [], ?_, rfl, ?_, SameShares.refl k⟩
      · rw [List.append_nil]
        rfl
      · rw [List.append_nil]
        exact h
  | cons a l₁ ih =>
      rw [List.cons_append] at h
      have hpos := h.pos a List.mem_cons_self
      obtain ⟨m, hm⟩ : ∃ m : Nat, k.share a = m + 1 := ⟨(k.share a).toNat - 1, by omega⟩
      have hticks : (k.proc a).pTicks = m + 1 := (h.ticks a List.mem_cons_self).trans hm
      obtain ⟨mid, before, hturn, hover⟩ :=
        watch_turn ts 0 h.userQ (h.first a List.mem_cons_self) hticks
      have hready := hover.ready h
      rw [List.append_assoc] at hready
      obtain ⟨k', new, hwatch, hnew, hready', hsame⟩ :=
        ih (ts ++ [⟨a, 0 + (m + 1), before, mid⟩]) hready
      simp only [hover.sameShares.share_eq] at hwatch hnew
      refine ⟨k', ⟨a, 0 + (m + 1), before, mid⟩ :: new, ?_, ?_, ?_, hover.sameShares.trans hsame⟩
      · have hcount : (k.share a).toNat = m + 1 := by omega
        rw [List.map_cons, List.sum_cons, hcount, List.replicate_add, watch_append hturn, hwatch,
          List.append_assoc]
        rfl
      · rw [List.map_cons, List.map_cons, hnew, hm]
        show (a, ((0 + (m + 1) : Nat) : Int)) :: _ = _
        rw [Nat.zero_add]
        rfl
      · rw [List.append_assoc] at hready'
        exact hready'

/-- A ready queue has one round after the other. -/
theorem Ready.rounds (h : k.Ready l) : k.Rounds l := by
  -- The log of the rounds before is in front of that of the next one.
  suffices hrounds : ∀ (m : Nat) (ts : List Turn) (k : Kernel), k.Ready l → ∃ k' new,
      k.watch ⟨ts, 0⟩ (List.replicate (m * (l.map fun i => (k.share i).toNat).sum) .sched)
        = some (k', ⟨ts ++ new, 0⟩) ∧
      (new.map fun t => (t.process, (t.calls : Int)))
        = (List.replicate m (l.map fun i => (i, k.share i))).flatten ∧
      k'.UserQ l ∧ k.SameShares k' by
    intro m
    obtain ⟨k', new, hwatch, hnew, hq, hsame⟩ := hrounds m [] k h
    exact ⟨k', _, hwatch, hnew, rfl, hq, hsame⟩
  intro m
  induction m with
  | zero =>
      intro ts k hready
      refine ⟨k, [], ?_, rfl, hready.userQ, SameShares.refl k⟩
      rw [Nat.zero_mul, List.append_nil]
      rfl
  | succ m ih =>
      intro ts k hready
      rw [← List.append_nil l] at hready
      obtain ⟨mid, new, hround, hnew, hmid, hsame⟩ := watch_part ts hready
      obtain ⟨k', new', hwatch, hnew', hq, hsame'⟩ := ih (ts ++ new) mid hmid
      simp only [hsame.share_eq] at hwatch hnew'
      refine ⟨k', new ++ new', ?_, ?_, hq, hsame.trans hsame'⟩
      · rw [Nat.succ_mul, Nat.add_comm, List.replicate_add, watch_append hround, hwatch,
          List.append_assoc]
      · rw [List.map_append, hnew, hnew', List.replicate_succ, List.flatten_cons]

end

/-! ### All turns -/

/-- Any run of `sched`, `do_setsched` with proportions in 1..99, and `do_chgroup`, over processes
that have been forked. The run does not fail. The queue is the first one, rotated once for each turn
that is over, so that only the last call of a turn moves a process. Each turn that is over was as
long as what was granted for it, and the one that is not over is shorter.

When there are only calls of `sched` from then on, each process has ended a turn other than its
first one after at most 198 calls for each process. Once it has, all rounds over the queue are the
same: each process gets what `PROC_TIME` holds for its group. -/
theorem turns_exact (k₀ : Kernel) (l₀ : List Int) (fork : Int → Int) (hq : k₀.UserQ l₀)
    (hrange : k₀.InRange) (hfork : ∀ i ∈ l₀, k₀.Forked i (fork i)) (calls : List Call)
    (hcalls : ∀ call ∈ calls, Allowed call) :
    ∃ k log, k₀.run calls = some k ∧ k₀.watch Log.empty calls = some (k, log) ∧
      k.UserQ (l₀.rotate log.turns.length) ∧ Exact fork log.turns ∧
      (∀ a rest, l₀.rotate log.turns.length = a :: rest →
        (log.calls : Int) < granted (fork a) (turnsOf log.turns a)) ∧
      (∃ m ≤ 198 * l₀.length, ∃ k' log',
        k.watch log (List.replicate m .sched) = some (k', log') ∧ log'.calls = 0 ∧
          ∀ a ∈ l₀, Settled log.turns log'.turns a) ∧
      ∀ m k' log', k.watch log (List.replicate m .sched) = some (k', log') → log'.calls = 0 →
        (∀ a ∈ l₀, Settled log.turns log'.turns a) →
          k'.Rounds (l₀.rotate log'.turns.length) := by
  obtain ⟨k, log, n, hwatch, hlength, hwatched⟩ :=
    watch_watched (watched_forked hq hrange hfork) hcalls
  obtain rfl : log.turns.length = n := hlength.trans (Nat.zero_add n)
  refine ⟨k, log, run_of_watch hwatch, hwatch, hwatched.userQ, hwatched.exact, ?_, ?_, ?_⟩
  · intro a rest hl
    exact (hwatched.head a rest hl).used_lt
  · obtain ⟨m, hm, k', log', hwatch', hidle, hsettled⟩ := hwatched.settles
    rw [List.length_rotate] at hm
    exact ⟨m, hm, k', log', hwatch', hidle, fun a ha => hsettled a (List.mem_rotate.mpr ha)⟩
  · intro m k' log' hwatch' hidle hsettled
    obtain ⟨n, hlength', hready⟩ := hwatched.ready_of_settled hwatch' hidle fun a ha =>
      hsettled a (List.mem_rotate.mp ha)
    rw [List.rotate_rotate, ← hlength'] at hready
    exact hready.rounds

/-- The process 5 is there, and the other slots are empty. -/
def parentKernel : Kernel :=
  { tinyKernel with
      proc := fun i =>
        { tinyProc i .groupA none with pPriority := if i = 5 then .user else .none } }

/-- Two processes that have been forked when both quanta were 1. -/
def shortKernel : Kernel :=
  { tinyKernel with proc := fun i => { tinyKernel.proc i with pFirst := 1 } }

/-- Both children have just been created, with a quantum of 1. -/
theorem shortKernel_forked : ∀ i ∈ [0, 1], shortKernel.Forked i 1 := by
  have hone : (1 : Int) ≤ 1 ∧ (1 : Int) ≤ 99 := by decide
  intro i hi
  rcases List.mem_cons.mp hi with rfl | hi
  · exact ⟨{ parentKernel with procTime := fun _ => 1 }, 5, 2, _, rfl, fun _ => hone, rfl, rfl,
      rfl⟩
  · rw [List.mem_singleton.mp hi]
    exact ⟨{ parentKernel with procTime := fun _ => 1 }, 5, 3, _, rfl, fun _ => hone, rfl, rfl,
      rfl⟩

/-- The process 0 has had its first turn, and has asked for 60 percent. -/
def shortAsked : Kernel × Log :=
  (shortKernel.watch Log.empty [.sched, .setsched 0 60]).getD (shortKernel, Log.empty)

/-- Three turns later both processes have their shares. -/
def shortReady : Kernel × Log :=
  (shortAsked.1.watch shortAsked.2 (List.replicate 3 .sched)).getD (shortKernel, Log.empty)

/-- The next 100 calls of `sched` are a round, with 60 of them for the process 0. -/
theorem turns_exact_round : shortAsked.1.UserQ [1, 0] ∧ ∃ k log,
    shortReady.1.watch Log.empty (List.replicate 100 .sched) = some (k, log) ∧
      (log.turns.map fun t => (t.process, (t.calls : Int))) = [(0, 60), (1, 40)] ∧
      k.UserQ [0, 1] := by
  obtain ⟨k, log, -, hwatch, hq, -, -, -, hrounds⟩ := turns_exact shortKernel [0, 1] (fun _ => 1)
    ⟨⟨rfl, rfl, rfl⟩, fun _ => rfl⟩ tinyKernel_inv.quanta.range shortKernel_forked
    [.sched, .setsched 0 60] (by simp [Allowed])
  have hasked : shortKernel.watch Log.empty [.sched, .setsched 0 60] = some shortAsked := rfl
  obtain ⟨rfl, rfl⟩ := Prod.mk.inj (Option.some.inj (hwatch.symm.trans hasked))
  have hsettled : ∀ a ∈ [0, 1], Settled shortAsked.2.turns shortReady.2.turns a := by
    intro a ha
    rcases List.mem_cons.mp ha with rfl | ha
    · exact ⟨List.ne_nil_of_length_pos (by decide), by decide⟩
    · rw [List.mem_singleton.mp ha]
      exact ⟨List.ne_nil_of_length_pos (by decide), by decide⟩
  obtain ⟨k, log, hround, hturns, -, hq', -⟩ :=
    hrounds 3 shortReady.1 shortReady.2 rfl rfl hsettled 1
  exact ⟨hq, k, log, hround, hturns, hq'⟩

end Soi.Szeregowanie.Kernel
