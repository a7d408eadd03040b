import Mathlib.Data.List.Basic

/-!
# `Soi.Lib.Mailbox`: stores of messages and what they deliver

A `Mailbox` takes in messages and hands them out again, one at a time. A call can be refused, as
when the store is full or empty. `run` is the list of the messages that a sequence of calls
delivers. `Mailbox.Simulates` relates two mailboxes call by call, and `Simulates.run` is the rule:
the second one delivers what the first one delivers.

`Mailbox.bounded` is a mailbox with room for so many messages.

`Classes` is the contents of a store with two classes of messages, where the first class goes
out first. `twoClass` is such a mailbox, and its parameter is the place of a new message in the
first class. The other class is delivered in the order of arrival in any case (`twoClass_rest`).

* `byArrival` delivers the first class in the order of arrival too (`byArrival_first`);
* `latestFirst` has a stack for the first class.

The two deliver the same messages as long as no call of `read` finds two messages of the first
class (`ReadsOne.byArrival`). `deque` is a bounded list with two ends. Messages of the first class
go to its front, and so it delivers what `latestFirst` delivers (`deque_simulates`).
-/

set_option autoImplicit false

namespace Soi.Lib

/-- A call of a mailbox. -/
inductive Call (α : Type*) where
  | send (m : α)
  | read
  deriving DecidableEq, Repr

/-- The same call with another message. -/
def Call.map {α β : Type*} (g : α → β) : Call α → Call β
  | .send m => .send (g m)
  | .read => .read

/-- Calls with the same messages are the same calls. -/
theorem map_map_id {α : Type*} (calls : List (Call α)) : calls.map (Call.map id) = calls := by
  induction calls with
  | nil => rfl
  | cons call calls ih =>
      rw [List.map_cons, ih]
      cases call <;> rfl

/-- The messages that are sent, in the order of the calls. -/
def sends {α : Type*} : List (Call α) → List α
  | [] => []
  | .send m :: calls => m :: sends calls
  | .read :: calls => sends calls

/-- A store of messages. `none` is a call that is not allowed in this state. -/
structure Mailbox (α σ : Type*) where
  send : α → σ → Option σ
  read : σ → Option (α × σ)

namespace Mailbox

variable {α β σ τ : Type*}

/-- The messages that the calls deliver, and the state after them. -/
def run (box : Mailbox α σ) (s : σ) : List (Call α) → Option (List α × σ)
  | [] => some ([], s)
  | .send m :: calls =>
      match box.send m s with
      | none => none
      | some s => box.run s calls
  | .read :: calls =>
      match box.read s with
      | none => none
      | some (m, s) =>
          match box.run s calls with
          | none => none
          | some (got, s) => some (m :: got, s)

section
variable {box : Mailbox α σ} {s s₁ s' : σ} {m : α} {calls : List (Call α)} {got : List α}

/-- A sequence that starts with a call of `send` goes on behind it, and the call delivers nothing.
-/
theorem run_send (h : box.send m s = some s₁) :
    box.run s (.send m :: calls) = box.run s₁ calls := by
  rw [run, h]

/-- A sequence that starts with a call of `read` delivers its message first. -/
theorem run_read (h : box.read s = some (m, s₁)) (hrun : box.run s₁ calls = some (got, s')) :
    box.run s (.read :: calls) = some (m :: got, s') := by
  rw [run, h]
  show (match box.run s₁ calls with
    | none => none
    | some (got, s) => some (m :: got, s)) = _
  rw [hrun]

/-- A sequence that starts with a message sent. -/
theorem of_run_send (h : box.run s (.send m :: calls) = some (got, s')) :
    ∃ s₁, box.send m s = some s₁ ∧ box.run s₁ calls = some (got, s') := by
  rw [run] at h
  cases hsend : box.send m s with
  | none =>
      rw [hsend] at h
      cases h
  | some s₁ =>
      rw [hsend] at h
      exact ⟨s₁, rfl, h⟩

/-- A sequence that starts with a message read. -/
theorem of_run_read (h : box.run s (.read :: calls) = some (got, s')) :
    ∃ m s₁ rest, box.read s = some (m, s₁) ∧ box.run s₁ calls = some (rest, s') ∧
      got = m :: rest := by
  rw [run] at h
  cases hread : box.read s with
  | none =>
      rw [hread] at h
      cases h
  | some r =>
      cases hrun : box.run r.2 calls with
      | none => simp [hread, hrun] at h
      | some p =>
          simp only [hread, hrun, Option.some.injEq, Prod.mk.injEq] at h
          exact ⟨r.1, r.2, p.1, rfl, by rw [hrun, ← h.2], h.1.symm⟩

end

/-- What `a` does in a state, `b` does in each related one, and the states stay related. A
message `m` of `a` is `g m` for `b`. -/
structure Simulates (a : Mailbox α σ) (b : Mailbox β τ) (g : α → β) (R : σ → τ → Prop) : Prop where
  send : ∀ m s s' t, R s t → a.send m s = some s' → ∃ t', b.send (g m) t = some t' ∧ R s' t'
  read : ∀ m s s' t, R s t → a.read s = some (m, s') → ∃ t', b.read t = some (g m, t') ∧ R s' t'

/-- Then `b` delivers the same messages. -/
theorem Simulates.run {a : Mailbox α σ} {b : Mailbox β τ} {g : α → β} {R : σ → τ → Prop}
    (h : a.Simulates b g R) {s s' : σ} {t : τ} (hR : R s t) {calls : List (Call α)}
    {got : List α} (hrun : a.run s calls = some (got, s')) :
    ∃ t', b.run t (calls.map (Call.map g)) = some (got.map g, t') ∧ R s' t' := by
  -- Induction on the calls still to come, from any two related states.
  induction calls generalizing s t got with
  | nil =>
      obtain ⟨rfl, rfl⟩ := Prod.mk.inj (Option.some.inj hrun)
      exact ⟨t, rfl, hR⟩
  | cons call calls ih =>
      cases call with
      | send m =>
          obtain ⟨s₁, hsend, hrest⟩ := of_run_send hrun
          obtain ⟨t₁, hsend', hR₁⟩ := h.send m s s₁ t hR hsend
          obtain ⟨t', hrest', hR'⟩ := ih hR₁ hrest
          exact ⟨t', (run_send hsend').trans hrest', hR'⟩
      | read =>
          obtain ⟨m, s₁, rest, hread, hrest, rfl⟩ := of_run_read hrun
          obtain ⟨t₁, hread', hR₁⟩ := h.read m s s₁ t hR hread
          obtain ⟨t', hrest', hR'⟩ := ih hR₁ hrest
          exact ⟨t', run_read hread' hrest', hR'⟩

/-- The rule for two mailboxes of the same messages. -/
theorem Simulates.run_same {a : Mailbox α σ} {b : Mailbox α τ} {R : σ → τ → Prop}
    (h : a.Simulates b id R) {s s' : σ} {t : τ} (hR : R s t) {calls : List (Call α)}
    {got : List α} (hrun : a.run s calls = some (got, s')) :
    ∃ t', b.run t calls = some (got, t') ∧ R s' t' := by
  have hsame := h.run hR hrun
  rwa [map_map_id, List.map_id] at hsame

/-- The same mailbox with room for `n` messages, where `size` is their number. -/
def bounded (box : Mailbox α σ) (n : Nat) (size : σ → Nat) : Mailbox α σ where
  send m s := if size s < n then box.send m s else none
  read := box.read

/-- A mailbox with room left takes a message as it would without the bound. -/
theorem bounded_send {box : Mailbox α σ} {n : Nat} {size : σ → Nat} {m : α} {s : σ}
    (hroom : size s < n) : (box.bounded n size).send m s = box.send m s := if_pos hroom

/-- A message that is taken had room. -/
theorem of_bounded_send {box : Mailbox α σ} {n : Nat} {size : σ → Nat} {m : α} {s s' : σ}
    (h : (box.bounded n size).send m s = some s') : size s < n ∧ box.send m s = some s' := by
  by_cases hroom : size s < n
  · exact ⟨hroom, (bounded_send hroom).symm.trans h⟩
  · have hnone : (box.bounded n size).send m s = none := if_neg hroom
    rw [hnone] at h
    cases h

/-- A bound changes nothing but the calls that it refuses. -/
theorem bounded_simulates (box : Mailbox α σ) (n : Nat) (size : σ → Nat) :
    (box.bounded n size).Simulates box id Eq where
  send m s s' t := by
    rintro rfl hsend
    exact ⟨s', (of_bounded_send hsend).2, rfl⟩
  read m s s' t := by
    rintro rfl hread
    exact ⟨s', hread, rfl⟩

/-- Two mailboxes with the same bound, when related states have the same size. -/
theorem Simulates.bounded {a : Mailbox α σ} {b : Mailbox β τ} {g : α → β} {R : σ → τ → Prop}
    (h : a.Simulates b g R) (n : Nat) {size : σ → Nat} {size' : τ → Nat}
    (hsize : ∀ s t, R s t → size' t = size s) :
    (a.bounded n size).Simulates (b.bounded n size') g R where
  send m s s' t hR hsend := by
    obtain ⟨hroom, hsend⟩ := of_bounded_send hsend
    obtain ⟨t', hsend', hR'⟩ := h.send m s s' t hR hsend
    exact ⟨t', (bounded_send (hsize s t hR ▸ hroom)).trans hsend', hR'⟩
  read := h.read

end Mailbox

/-! ### Two classes -/

/-- The contents of a store: the messages of the first class, and the other ones. -/
structure Classes (α : Type*) where
  first : List α
  rest : List α
  deriving DecidableEq, Repr

namespace Classes

variable {α : Type*}

/-- The next message: one of the first class when there is one. -/
def read : Classes α → Option (α × Classes α)
  | ⟨m :: first, rest⟩ => some (m, ⟨first, rest⟩)
  | ⟨[], m :: rest⟩ => some (m, ⟨[], rest⟩)
  | ⟨[], []⟩ => none

/-- The store as one list. -/
def list (c : Classes α) : List α := c.first ++ c.rest

/-- A read takes the head of the list, and the classes stay. -/
theorem list_of_read {c c' : Classes α} {m : α} (h : c.read = some (m, c')) :
    c.list = m :: c'.list := by
  obtain ⟨first, rest⟩ := c
  cases first with
  | cons x first =>
      obtain ⟨rfl, rfl⟩ := Prod.mk.inj (Option.some.inj h)
      rfl
  | nil =>
      cases rest with
      | nil => cases h
      | cons x rest =>
          obtain ⟨rfl, rfl⟩ := Prod.mk.inj (Option.some.inj h)
          rfl

/-- A list that is not empty can be read. -/
theorem read_of_list {c : Classes α} {m : α} {l : List α} (h : c.list = m :: l) :
    ∃ c', c.read = some (m, c') ∧ c'.list = l := by
  obtain ⟨first, rest⟩ := c
  cases first with
  | cons x first =>
      obtain ⟨rfl, rfl⟩ := List.cons.inj h
      exact ⟨⟨first, rest⟩, rfl, rfl⟩
  | nil =>
      cases rest with
      | nil => cases h
      | cons x rest =>
          obtain ⟨rfl, rfl⟩ := List.cons.inj h
          exact ⟨⟨[], rest⟩, rfl, rfl⟩

end Classes

section
variable {α : Type*}

/-- A mailbox with two classes: a message of the first class is put to its place there, and any
other one to the end of the other class. -/
def twoClass (P : α → Bool) (place : α → List α → List α) : Mailbox α (Classes α) where
  send m c :=
    some (if P m then { c with first := place m c.first } else { c with rest := c.rest ++ [m] })
  read := Classes.read

/-- Each class in the order of arrival. -/
def byArrival (P : α → Bool) : Mailbox α (Classes α) := twoClass P fun m first => first ++ [m]

/-- The first class in the reverse order of arrival. -/
def latestFirst (P : α → Bool) : Mailbox α (Classes α) := twoClass P List.cons

/-- The messages are in the right class. -/
structure Classes.Sorted (P : α → Bool) (c : Classes α) : Prop where
  first : ∀ m ∈ c.first, P m = true
  rest : ∀ m ∈ c.rest, P m = false

/-- Each call of `read` finds at most one message of the first class, when there are `k` of them
at the start. -/
def ReadsOne (P : α → Bool) : Nat → List (Call α) → Prop
  | _, [] => True
  | k, .send m :: calls => ReadsOne P (if P m then k + 1 else k) calls
  | k, .read :: calls => k ≤ 1 ∧ ReadsOne P (k - 1) calls

variable {P : α → Bool} {place : α → List α → List α} {c c' d : Classes α} {m : α}
  {calls : List (Call α)} {got : List α}

/-- No message is in the wrong class of the empty store. -/
theorem Classes.sorted_empty : (⟨[], []⟩ : Classes α).Sorted P := ⟨by simp, by simp⟩

/-- The message that is read, in its class. The other class stays. -/
theorem Classes.Sorted.read_cases (h : c.Sorted P) (hread : c.read = some (m, c')) :
    (P m = true ∧ c.first = m :: c'.first ∧ c.rest = c'.rest) ∨
      (P m = false ∧ c.first = [] ∧ c'.first = [] ∧ c.rest = m :: c'.rest) := by
  obtain ⟨first, rest⟩ := c
  cases first with
  | cons x first =>
      obtain ⟨rfl, rfl⟩ := Prod.mk.inj (Option.some.inj hread)
      exact Or.inl ⟨h.first _ List.mem_cons_self, rfl, rfl⟩
  | nil =>
      cases rest with
      | nil => cases hread
      | cons x rest =>
          obtain ⟨rfl, rfl⟩ := Prod.mk.inj (Option.some.inj hread)
          exact Or.inr ⟨h.rest _ List.mem_cons_self, rfl, rfl, rfl⟩

/-- The classes stay sorted when a message is read: it only leaves. -/
theorem Classes.Sorted.of_read (h : c.Sorted P) (hread : c.read = some (m, c')) :
    c'.Sorted P := by
  have hfirst := h.first
  have hrest := h.rest
  rcases h.read_cases hread with ⟨-, hc₁, hc₂⟩ | ⟨-, -, hc₁, hc₂⟩
  · rw [hc₁] at hfirst
    exact ⟨(List.forall_mem_cons.mp hfirst).2, hc₂ ▸ hrest⟩
  · rw [hc₂] at hrest
    exact ⟨by simp [hc₁], (List.forall_mem_cons.mp hrest).2⟩

/-- The classes stay sorted when a message is sent: it goes to its class, at any place there. -/
theorem Classes.Sorted.of_send (hplace : ∀ m l, (place m l).Perm (m :: l)) (h : c.Sorted P)
    (hsend : (twoClass P place).send m c = some c') : c'.Sorted P := by
  obtain rfl := Option.some.inj hsend
  by_cases hm : P m = true
  · rw [if_pos hm]
    refine ⟨?_, h.rest⟩
    intro x hx
    rcases List.mem_cons.mp ((hplace m c.first).mem_iff.mp hx) with rfl | hx
    · exact hm
    · exact h.first x hx
  · rw [if_neg hm]
    exact ⟨h.first, by simpa [or_imp, forall_and] using ⟨h.rest, Bool.eq_false_iff.mpr hm⟩⟩

/-- The classes stay sorted, and the other class is delivered in the order of arrival, without a
loss. -/
theorem twoClass_rest (hplace : ∀ m l, (place m l).Perm (m :: l)) (h : c.Sorted P)
    (hrun : (twoClass P place).run c calls = some (got, c')) :
    c'.Sorted P ∧ c.rest ++ (sends calls).filter (fun m => !P m)
      = got.filter (fun m => !P m) ++ c'.rest := by
  induction calls generalizing c got with
  | nil =>
      obtain ⟨rfl, rfl⟩ := Prod.mk.inj (Option.some.inj hrun)
      simp [sends, h]
  | cons call calls ih =>
      cases call with
      | send m =>
          obtain ⟨c₁, hsend, hrest⟩ := Mailbox.of_run_send hrun
          obtain ⟨hc', hothers⟩ := ih (h.of_send hplace hsend) hrest
          obtain rfl := Option.some.inj hsend
          by_cases hm : P m = true
          · simp only [if_pos hm] at hothers
            simpa [sends, List.filter_cons, hm] using ⟨hc', hothers⟩
          · -- The message is at the end of its class, and the later ones follow it.
            simp only [if_neg hm, List.append_assoc, List.singleton_append] at hothers
            simpa [sends, List.filter_cons, hm] using ⟨hc', hothers⟩
      | read =>
          obtain ⟨m, c₁, rest, hread, hrest, rfl⟩ := Mailbox.of_run_read hrun
          obtain ⟨hc', hothers⟩ := ih (h.of_read hread) hrest
          rcases h.read_cases hread with ⟨hm, -, hc₁⟩ | ⟨hm, -, -, hc₁⟩
          · simpa [sends, List.filter_cons, hm, hc₁] using ⟨hc', hothers⟩
          · simpa [sends, List.filter_cons, hm, hc₁] using ⟨hc', hothers⟩

/-- In the order of arrival the first class is delivered as it was sent. -/
theorem byArrival_first (h : c.Sorted P) (hrun : (byArrival P).run c calls = some (got, c')) :
    c.first ++ (sends calls).filter P = got.filter P ++ c'.first := by
  induction calls generalizing c got with
  | nil =>
      obtain ⟨rfl, rfl⟩ := Prod.mk.inj (Option.some.inj hrun)
      simp [sends]
  | cons call calls ih =>
      cases call with
      | send m =>
          obtain ⟨c₁, hsend, hrest⟩ := Mailbox.of_run_send hrun
          have hfirst := ih (h.of_send (fun m l => List.perm_append_singleton m l) hsend) hrest
          obtain rfl := Option.some.inj hsend
          by_cases hm : P m = true
          · simp only [if_pos hm] at hfirst
            simpa [sends, List.filter_cons, hm] using hfirst
          · simp only [if_neg hm] at hfirst
            simpa [sends, List.filter_cons, hm] using hfirst
      | read =>
          obtain ⟨m, c₁, rest, hread, hrest, rfl⟩ := Mailbox.of_run_read hrun
          have hfirst := ih (h.of_read hread) hrest
          rcases h.read_cases hread with ⟨hm, hc₁, -⟩ | ⟨hm, hc₁, hc₂, -⟩
          · simpa [sends, List.filter_cons, hm, hc₁] using hfirst
          · simpa [sends, List.filter_cons, hm, hc₁, hc₂] using hfirst

/-- A stack is the latest messages of its class that were not read, and each message is there or
was read. -/
theorem latestFirst_first (h : c.Sorted P) (hrun : (latestFirst P).run c calls = some (got, c')) :
    c'.first.Sublist (((sends calls).filter P).reverse ++ c.first) ∧
      (got.filter P ++ c'.first).Perm (((sends calls).filter P).reverse ++ c.first) := by
  induction calls generalizing c got with
  | nil =>
      obtain ⟨rfl, rfl⟩ := Prod.mk.inj (Option.some.inj hrun)
      exact ⟨List.Sublist.refl _, List.Perm.refl _⟩
  | cons call calls ih =>
      cases call with
      | send m =>
          obtain ⟨c₁, hsend, hrest⟩ := Mailbox.of_run_send hrun
          have hfirst := ih (h.of_send (fun m l => List.Perm.refl _) hsend) hrest
          obtain rfl := Option.some.inj hsend
          by_cases hm : P m = true
          · simp only [if_pos hm] at hfirst
            simpa [sends, List.filter_cons, hm] using hfirst
          · simp only [if_neg hm] at hfirst
            simpa [sends, List.filter_cons, hm] using hfirst
      | read =>
          obtain ⟨m, c₁, rest, hread, hrest, rfl⟩ := Mailbox.of_run_read hrun
          obtain ⟨hsublist, hperm⟩ := ih (h.of_read hread) hrest
          rcases h.read_cases hread with ⟨hm, hc₁, -⟩ | ⟨hm, hc₁, hc₂, -⟩
          · -- The message on top of the stack is now one that was read.
            rw [hc₁]
            refine ⟨hsublist.trans ((List.sublist_cons_self m _).append_left _), ?_⟩
            rw [List.filter_cons_of_pos hm]
            exact (hperm.cons m).trans List.perm_middle.symm
          · rw [hc₁, ← hc₂]
            simpa [sends, List.filter_cons, hm] using ⟨hsublist, hperm⟩

/-- A stack and a queue with at most one element deliver the same one. -/
theorem ReadsOne.byArrival (h : ReadsOne P c.first.length calls)
    (hfirst : d.first = c.first.reverse) (hrest : d.rest = c.rest)
    (hrun : (latestFirst P).run c calls = some (got, c')) :
    ∃ d', (Lib.byArrival P).run d calls = some (got, d') ∧ d'.first = c'.first.reverse ∧
      d'.rest = c'.rest := by
  -- The two stores have the same messages, in the first class in opposite orders.
  induction calls generalizing c d got with
  | nil =>
      obtain ⟨rfl, rfl⟩ := Prod.mk.inj (Option.some.inj hrun)
      exact ⟨d, rfl, hfirst, hrest⟩
  | cons call calls ih =>
      cases call with
      | send m =>
          obtain ⟨c₁, hsend, hrun'⟩ := Mailbox.of_run_send hrun
          obtain rfl := Option.some.inj hsend
          have h : ReadsOne P (if P m then c.first.length + 1 else c.first.length) calls := h
          by_cases hm : P m = true
          · simp only [if_pos hm] at h hrun'
            obtain ⟨d', hd, hd'⟩ := ih (c := ⟨m :: c.first, c.rest⟩)
              (d := ⟨d.first ++ [m], d.rest⟩) h (by simp [hfirst]) hrest hrun'
            refine ⟨d', ?_, hd'⟩
            rw [← hd]
            exact Mailbox.run_send (by simp [Lib.byArrival, twoClass, hm])
          · simp only [if_neg hm] at h hrun'
            obtain ⟨d', hd, hd'⟩ := ih (c := ⟨c.first, c.rest ++ [m]⟩)
              (d := ⟨d.first, d.rest ++ [m]⟩) h hfirst (by simp [hrest]) hrun'
            refine ⟨d', ?_, hd'⟩
            rw [← hd]
            exact Mailbox.run_send (by simp [Lib.byArrival, twoClass, hm])
      | read =>
          obtain ⟨m, c₁, got', hread, hrun', rfl⟩ := Mailbox.of_run_read hrun
          obtain ⟨hone, h⟩ := h
          -- At most one message of the first class: its reverse is itself.
          have hread' : d.read = some (m, c₁) ∧ c₁.first = [] := by
            obtain ⟨first, rest⟩ := c
            obtain ⟨first', rest'⟩ := d
            obtain rfl : rest' = rest := hrest
            match first, hone with
            | [], _ =>
                obtain rfl : first' = [] := hfirst
                cases rest' with
                | nil => cases hread
                | cons x rest =>
                    obtain ⟨rfl, rfl⟩ := Prod.mk.inj (Option.some.inj hread)
                    exact ⟨rfl, rfl⟩
            | [x], _ =>
                obtain rfl : first' = [x] := hfirst
                obtain ⟨rfl, rfl⟩ := Prod.mk.inj (Option.some.inj hread)
                exact ⟨rfl, rfl⟩
          have hk : c.first.length - 1 = c₁.first.length := by
            rw [hread'.2, List.length_nil]
            omega
          obtain ⟨d', hd, hd'⟩ := ih (d := c₁) (hk ▸ h) (by simp [hread'.2]) rfl hrun'
          exact ⟨d', Mailbox.run_read hread'.1 hd, hd'⟩

/-- A list of at most `n` messages. Those of the first class go to its front. -/
def deque (P : α → Bool) (n : Nat) : Mailbox α (List α) where
  send m l := if l.length < n then some (if P m then m :: l else l ++ [m]) else none
  read
    | [] => none
    | m :: l => some (m, l)

/-- Its front is a stack of the first class, and the rest of it is a queue of the other one. -/
theorem deque_simulates (P : α → Bool) (n : Nat) :
    (deque P n).Simulates (latestFirst P) id fun l c => c.list = l where
  send m l l' c hlist hsend := by
    subst hlist
    simp only [deque] at hsend
    split at hsend
    · obtain rfl := Option.some.inj hsend
      refine ⟨_, rfl, ?_⟩
      by_cases hm : P m = true
      · simp [Classes.list, hm]
      · simp [Classes.list, hm]
    · cases hsend
  read m l l' c hlist hread := by
    cases l with
    | nil => cases hread
    | cons x l =>
        obtain ⟨rfl, rfl⟩ := Prod.mk.inj (Option.some.inj hread)
        exact Classes.read_of_list hlist

end

end Soi.Lib
