import Soi.Proofs.Monitory.Chat

/-!
# `Soi.Proofs.Monitory.Progress`: no thread waits in vain

`send_msg` signals `empty` only when it put the first message, and `read_msg` signals `full` only
when it made the first place. This is enough: while the monitor is free, a thread waits only when
it has nothing to use (`Inv.nothing_to_use`). A thread inside, and a thread that a unit is on its
way to, can take a step (`exists_next_of_inside`, `exists_next_of_handed`), so that in a state
without a step the monitor is free and `stuck_of_reaches` follows.
-/

set_option autoImplicit false

namespace Soi.Monitory.Chat

open Soi.Lib

variable {ι : Type*} [DecidableEq ι] [Fintype ι] {capacity : Nat} {chat chat' : Chat ι} {i : ι}

/-- The thread has made all its calls. -/
def Finished (chat : Chat ι) (i : ι) : Prop :=
  (chat.thread i).pc = .idle ∧ (chat.thread i).calls = []

/-- Nobody is inside, and no unit of a condition is on its way. -/
structure Quiet (chat : Chat ι) : Prop where
  outside : ∀ i, (chat.thread i).pc.inside = false
  notHanded : ∀ c, (chat.cond c).w = 0

omit [DecidableEq ι] in
/-- Then the monitor is free. -/
theorem Inv.s_eq_one (h : Inv capacity chat) (hquiet : chat.Quiet) : chat.s = 1 := by
  have howner := h.owner
  have hinside : count (fun t : Thread => t.pc.inside) chat.thread = 0 :=
    count_eq_zero.mpr hquiet.outside
  have hw : ∑ c, (chat.cond c).w = 0 := Finset.sum_eq_zero fun c _ => hquiet.notHanded c
  omega

omit [DecidableEq ι] in
/-- A thread that waits while the monitor is free has nothing to use. -/
theorem Inv.nothing_to_use (h : Inv capacity chat) (hquiet : chat.Quiet) {call : Call}
    (hpc : (chat.thread i).pc = .waitP call) :
    room capacity chat.buffer call.waitsOn = 0 := by
  have hcalm := h.calm (by rw [h.s_eq_one hquiet]; exact Nat.one_ne_zero)
  have hwaits : 0 < count (fun t : Thread => t.pc.waitsFor call.waitsOn) chat.thread := by
    refine count_pos_of (P := fun t : Thread => t.pc.waitsFor call.waitsOn) (i := i) ?_
    rw [hpc]
    exact beq_self_eq_true _
  -- A thread that is about to signal would be inside.
  have hposts : count (fun t : Thread => t.pc.posts call.waitsOn) chat.thread = 0 := by
    refine count_eq_zero.mpr ?_
    intro j
    have hout := hquiet.outside j
    cases hj : (chat.thread j).pc with
    | signalV call' =>
        rw [hj] at hout
        cases hout
    | _ => rfl
  have hwaiters := h.waiters call.waitsOn
  have hw := hquiet.notHanded call.waitsOn
  exact hcalm _ (by omega)

omit [DecidableEq ι] in
/-- With nobody inside, a reader waits only for an empty list, and a sender only for a full one.
Otherwise a thread would have been signalled, or would still have to signal. -/
theorem Inv.length_of_waits (h : Inv capacity chat) (hquiet : chat.Quiet) :
    ((chat.thread i).pc = .waitP .readMsg → chat.buffer = []) ∧
      ∀ m, (chat.thread i).pc = .waitP (.sendMsg m) → chat.buffer.length = capacity := by
  constructor
  · intro hpc
    exact List.length_eq_zero_iff.mp (h.nothing_to_use hquiet hpc)
  · intro m hpc
    have hroom : capacity - chat.buffer.length = 0 := h.nothing_to_use hquiet hpc
    have := h.length_le
    omega

/-! ### Steps that are possible -/

/-- A thread inside can take a step: it tests, it signals, it leaves, or it uses the list, which
has what the thread needs. -/
theorem exists_next_of_inside (h : Inv capacity chat) (hin : (chat.thread i).pc.inside = true) :
    ∃ chat', chat.next capacity i = some chat' := by
  cases hpc : (chat.thread i).pc with
  | test call =>
      simp only [next, hpc]
      split_ifs
      · exact ⟨_, rfl⟩
      · exact ⟨_, rfl⟩
  | waitLeave call =>
      simp only [next, hpc]
      exact ⟨_, rfl⟩
  | body call =>
      -- `use` is undefined only for a reader with an empty list.
      have hroom := (h.knows hpc).room_ne
      have huse : ∃ r, call.use (chat.thread i) chat.buffer = some r := by
        cases call with
        | sendMsg m => exact ⟨_, rfl⟩
        | readMsg =>
            cases hbuffer : chat.buffer with
            | nil =>
                rw [hbuffer] at hroom
                exact absurd rfl hroom
            | cons m rest => exact ⟨_, rfl⟩
      obtain ⟨r, hr⟩ := huse
      simp only [next, hpc, hr]
      split_ifs
      · exact ⟨_, rfl⟩
      · exact ⟨_, rfl⟩
  | signalV call =>
      simp only [next, hpc]
      exact ⟨_, rfl⟩
  | leave call =>
      simp only [next, hpc]
      exact ⟨_, rfl⟩
  | _ =>
      rw [hpc] at hin
      cases hin

omit [Fintype ι] in
/-- A thread that waits for a unit that is on its way can take it. -/
theorem exists_next_of_handed {call : Call} (hpc : (chat.thread i).pc = .waitP call)
    (hw : (chat.cond call.waitsOn).w ≠ 0) : ∃ chat', chat.next capacity i = some chat' := by
  simp only [next, hpc, if_neg hw]
  exact ⟨_, rfl⟩

omit [Fintype ι] in
/-- While the monitor is free, a thread that does not wait can enter, or it has finished. -/
theorem exists_next_of_free (hs : chat.s ≠ 0) (hout : (chat.thread i).pc.inside = false) :
    (∃ chat', chat.next capacity i = some chat') ∨ chat.Finished i ∨
      ∃ call, (chat.thread i).pc = .waitP call := by
  cases hpc : (chat.thread i).pc with
  | idle =>
      cases hcalls : (chat.thread i).calls with
      | nil => exact Or.inr (Or.inl ⟨hpc, hcalls⟩)
      | cons call calls =>
          simp only [next, hpc, hcalls, if_neg hs]
          exact Or.inl ⟨_, rfl⟩
  | waitP call => exact Or.inr (Or.inr ⟨call, rfl⟩)
  | signalEnter call =>
      simp only [next, hpc, if_neg hs]
      exact Or.inl ⟨_, rfl⟩
  | _ =>
      rw [hpc] at hout
      cases hout

/-- Where no thread can take a step the monitor is free, and each thread waits or has
finished. -/
theorem Inv.stuck (h : Inv capacity chat) (hstuck : ∀ i, chat.next capacity i = none) :
    chat.Quiet ∧ ∀ i, chat.Finished i ∨ ∃ call, (chat.thread i).pc = .waitP call := by
  have hno : ∀ i, ¬ ∃ chat', chat.next capacity i = some chat' := by
    rintro i ⟨chat', hnext⟩
    rw [hstuck i] at hnext
    cases hnext
  -- A thread inside could go on, and so could a thread that a unit is on its way to.
  have hquiet : chat.Quiet := by
    refine ⟨fun i => Bool.eq_false_iff.mpr fun hin => hno i (exists_next_of_inside h hin),
      ?_⟩
    intro c
    by_contra hw
    obtain ⟨i, call, hpc, hc⟩ := h.exists_waitP hw
    exact hno i (exists_next_of_handed hpc (hc ▸ hw))
  have hs : chat.s ≠ 0 := by
    rw [h.s_eq_one hquiet]
    exact Nat.one_ne_zero
  exact ⟨hquiet, fun i => (exists_next_of_free hs (hquiet.outside i)).resolve_left (hno i)⟩

/-- While nobody is inside and no unit is on its way, a thread that waits for `empty` finds the
list empty, and a thread that waits for `full` finds it full. When no thread can take a step, all
have finished, or the unfinished ones all wait to read from the empty list, or they all wait to
send to the full one. -/
theorem stuck_of_reaches (capacity : Nat) (hpos : 0 < capacity) (program : ι → List Call)
    (chat : Chat ι) (hrun : Reaches capacity (start program) chat) :
    (chat.Quiet → ∀ i,
      ((chat.thread i).pc = .waitP .readMsg → chat.buffer = []) ∧
      ∀ m, (chat.thread i).pc = .waitP (.sendMsg m) → chat.buffer.length = capacity) ∧
    ((∀ i, chat.next capacity i = none) →
      (∀ i, chat.Finished i) ∨
      (chat.buffer = [] ∧ ∀ i, ¬ chat.Finished i → (chat.thread i).pc = .waitP .readMsg) ∨
      (chat.buffer.length = capacity ∧
        ∀ i, ¬ chat.Finished i → ∃ m, (chat.thread i).pc = .waitP (.sendMsg m))) := by
  have h := reaches_inv hpos (start_inv program) hrun
  refine ⟨fun hquiet i => h.length_of_waits hquiet, ?_⟩
  intro hstuck
  obtain ⟨hquiet, hall⟩ := h.stuck hstuck
  -- An empty list is not full.
  by_cases hempty : chat.buffer = []
  · refine Or.inr (Or.inl ⟨hempty, ?_⟩)
    intro i hi
    obtain ⟨call, hpc⟩ := (hall i).resolve_left hi
    cases call with
    | readMsg => exact hpc
    | sendMsg m =>
        have hlength := (h.length_of_waits hquiet).2 m hpc
        rw [hempty, List.length_nil] at hlength
        omega
  · have hsends : ∀ i, ¬ chat.Finished i → ∃ m, (chat.thread i).pc = .waitP (.sendMsg m) := by
      intro i hi
      obtain ⟨call, hpc⟩ := (hall i).resolve_left hi
      cases call with
      | readMsg => exact absurd ((h.length_of_waits hquiet).1 hpc) hempty
      | sendMsg m => exact ⟨m, hpc⟩
    by_cases hdone : ∀ i, chat.Finished i
    · exact Or.inl hdone
    · obtain ⟨i, hi⟩ := not_forall.mp hdone
      obtain ⟨m, hpc⟩ := hsends i hi
      exact Or.inr (Or.inr ⟨(h.length_of_waits hquiet).2 m hpc, hsends⟩)

/-- A reader that waits, and a user that sends nothing. -/
def tinyStuckProgram : Bool → List Call
  | false => regularUser 7 0
  | true => reader 1

def tinyStuck : Chat Bool :=
  (Run.schedule (next 1) (start tinyStuckProgram) [true, true, true]).getD (start tinyStuckProgram)

/-- The schedule is a run. -/
theorem tinyStuck_reached : Reaches 1 (start tinyStuckProgram) tinyStuck :=
  Run.of_schedule [true, true, true] rfl

/-- Nobody has a step: the one thread waits, and the other one has no calls. -/
theorem tinyStuck_next (i : Bool) : tinyStuck.next 1 i = none := by
  cases i with
  | false => rfl
  | true => rfl

/-- A reader without a sender waits for ever, at an empty list. -/
theorem stuck_of_reaches_tiny : tinyStuck.Quiet ∧ tinyStuck.buffer = [] ∧
    ¬ ∀ i, tinyStuck.Finished i := by
  have hquiet : tinyStuck.Quiet := ⟨by decide, fun c => by cases c <;> rfl⟩
  have hopen : ¬ ∀ i, tinyStuck.Finished i := fun hall => absurd (hall true).1 (by decide)
  obtain ⟨hwaits, hstuck⟩ := stuck_of_reaches 1 (by decide) tinyStuckProgram tinyStuck
    tinyStuck_reached
  refine ⟨hquiet, (hwaits hquiet true).1 (by decide), ?_⟩
  rcases hstuck tinyStuck_next with hall | hread | hsend
  · exact absurd hall hopen
  · exact hopen
  · exact hopen

end Soi.Monitory.Chat
