import Mathlib.Data.List.Basic
import Mathlib.Logic.Function.Basic
import Soi.Lib.Mailbox
import Soi.Lib.Run

/-!
# `Soi.Lib.History`: what a run of threads has done to a mailbox

In a system of threads `next s i` is the state after a step of the thread `i`, if it has one. A step
can be the one with which a call of a mailbox takes effect, and `event s i` says so. `history` is a
schedule with the events of its steps, the oldest one first.

`history_invariant` is the rule for what the events of a run and its last state have to do with
each other. `Effect` is what one step does, and `Linearized` is what a run has done when each of its
steps has such an effect (`history_linearized`): the store of the system is a mailbox, the events
are a run of it, call by call, and a thread records its own events in the order of its program.

When the mailbox has two classes in the order of arrival, `Linearized.reader` is what a reader gets:
of each class, the messages of one sender in the order in which they were sent.
-/

set_option autoImplicit false

namespace Soi.Lib

/-- A call that took effect: the thread that made it, and the message that it sent or read. -/
inductive Event (ι α : Type*) where
  | sent (i : ι) (m : α)
  | got (i : ι) (m : α)
  deriving DecidableEq, Repr

namespace Event

variable {ι α : Type*}

/-- The thread. -/
def thread : Event ι α → ι
  | sent i _ => i
  | got i _ => i

/-- The call, without its result. -/
def call : Event ι α → Call α
  | sent _ m => .send m
  | got _ _ => .read

/-- The message that was read. -/
def reading : Event ι α → Option α
  | sent _ _ => none
  | got _ m => some m

/-- The message that was sent. -/
def sending : Event ι α → Option α
  | sent _ m => some m
  | got _ _ => none

end Event

section
variable {ι α : Type*}

/-- The calls of some events. -/
def calls (events : List (Event ι α)) : List (Call α) := events.map Event.call

/-- The messages that were read. -/
def readings (events : List (Event ι α)) : List α := events.filterMap Event.reading

/-- The events of the thread `i`. -/
def eventsOf [DecidableEq ι] (i : ι) (events : List (Event ι α)) : List (Event ι α) :=
  events.filter fun e => e.thread = i

/-- The messages that were sent, in the order of the events. -/
theorem sends_calls (events : List (Event ι α)) :
    sends (calls events) = events.filterMap Event.sending := by
  induction events with
  | nil => rfl
  | cons e events ih =>
      cases e with
      | sent i m =>
          show m :: sends (calls events) = m :: events.filterMap Event.sending
          rw [ih]
      | got i m => exact ih

/-- The messages of two sequences of calls, one after the other. -/
theorem sends_append (cs ds : List (Call α)) : sends (cs ++ ds) = sends cs ++ sends ds := by
  induction cs with
  | nil => rfl
  | cons call cs ih =>
      cases call with
      | send m => exact congrArg (m :: ·) ih
      | read => exact ih

/-- The number of the calls of `read`. -/
def reads : List (Call α) → Nat
  | [] => 0
  | .send _ :: calls => reads calls
  | .read :: calls => reads calls + 1

/-- The numbers of the reads of two sequences of calls add up. -/
theorem reads_append (cs ds : List (Call α)) : reads (cs ++ ds) = reads cs + reads ds := by
  induction cs with
  | nil => exact (Nat.zero_add _).symm
  | cons call cs ih =>
      cases call with
      | send m => exact ih
      | read =>
          show reads (cs ++ ds) + 1 = reads cs + 1 + reads ds
          omega

/-- The calls of `read` in a history are those that got a message. -/
theorem reads_calls (events : List (Event ι α)) :
    reads (calls events) = (readings events).length := by
  induction events with
  | nil => rfl
  | cons e events ih =>
      cases e with
      | sent i m => exact ih
      | got i m => exact congrArg (· + 1) ih

/-! ### Programs with one kind of call -/

/-- Who only sends, sends all its messages in their order. -/
theorem sends_map_send (messages : List α) : sends (messages.map Call.send) = messages := by
  induction messages with
  | nil => rfl
  | cons m messages ih => exact congrArg (m :: ·) ih

/-- Who only sends, reads nothing. -/
theorem reads_map_send (messages : List α) : reads (messages.map Call.send) = 0 := by
  induction messages with
  | nil => rfl
  | cons m messages ih => exact ih

/-- Who only reads, sends nothing. -/
theorem sends_replicate_read (n : Nat) : sends (List.replicate n (Call.read (α := α))) = [] := by
  induction n with
  | zero => rfl
  | succ n ih => exact ih

/-- Who only reads, reads as many messages as it has calls. -/
theorem reads_replicate_read (n : Nat) : reads (List.replicate n (Call.read (α := α))) = n := by
  induction n with
  | zero => rfl
  | succ n ih => exact congrArg (· + 1) ih

variable {σ : Type*} (next : σ → ι → Option σ) (event : σ → ι → Option (Event ι α))

/-- The events of the steps of a schedule, and the state after them. -/
def history (s : σ) : List ι → Option (List (Event ι α) × σ)
  | [] => some ([], s)
  | i :: schedule =>
      match next s i with
      | none => none
      | some s' =>
          match history s' schedule with
          | none => none
          | some (events, t) => some ((event s i).toList ++ events, t)

variable {next event} {s s' t : σ} {i : ι} {schedule : List ι} {events : List (Event ι α)}

/-- A history is a first step and the history of the other ones. -/
theorem of_history_cons (h : history next event s (i :: schedule) = some (events, t)) :
    ∃ s' rest, next s i = some s' ∧ history next event s' schedule = some (rest, t) ∧
      events = (event s i).toList ++ rest := by
  rw [history] at h
  cases hnext : next s i with
  | none =>
      rw [hnext] at h
      cases h
  | some s' =>
      rw [hnext] at h
      cases hrest : history next event s' schedule with
      | none => simp [hrest] at h
      | some p =>
          simp only [hrest, Option.some.injEq, Prod.mk.injEq] at h
          obtain ⟨rfl, rfl⟩ := h
          exact ⟨s', p.1, rfl, hrest, rfl⟩

/-- A schedule with one more step in front. The event of this step, if it has one, comes first. -/
theorem history_cons {rest : List (Event ι α)} (hnext : next s i = some s')
    (hrest : history next event s' schedule = some (rest, t)) :
    history next event s (i :: schedule) = some ((event s i).toList ++ rest, t) := by
  rw [history, hnext]
  simp only [hrest]

/-- Each schedule has a history. -/
theorem exists_history (h : Run.schedule next s schedule = some t) :
    ∃ events, history next event s schedule = some (events, t) := by
  induction schedule generalizing s with
  | nil =>
      obtain rfl := Option.some.inj h
      exact ⟨[], rfl⟩
  | cons i schedule ih =>
      rw [Run.schedule] at h
      cases hnext : next s i with
      | none =>
          rw [hnext] at h
          cases h
      | some s' =>
          rw [hnext] at h
          obtain ⟨events, hrest⟩ := ih h
          exact ⟨_, history_cons hnext hrest⟩

/-- What each step keeps, with its event at the end of the events so far, a run keeps. -/
theorem history_invariant {P : List (Event ι α) → σ → Prop}
    (hstep : ∀ events s i s', P events s → next s i = some s' →
      P (events ++ (event s i).toList) s')
    (pre : List (Event ι α)) (h : P pre s)
    (hrun : history next event s schedule = some (events, t)) : P (pre ++ events) t := by
  -- The induction is on the steps ahead, and `pre` takes in the event of each step that is made.
  induction schedule generalizing s pre events with
  | nil =>
      obtain ⟨rfl, rfl⟩ := Prod.mk.inj (Option.some.inj hrun)
      rw [List.append_nil]
      exact h
  | cons i schedule ih =>
      obtain ⟨s', rest, hnext, hrest, rfl⟩ := of_history_cons hrun
      rw [← List.append_assoc]
      exact ih _ (hstep pre s i s' h hnext) hrest

/-! ### The store of the system -/

/-- What a step does to the store: nothing when no call takes effect, and otherwise the call. -/
def Mailbox.Does {τ : Type*} (box : Mailbox α τ) : Option (Event ι α) → τ → τ → Prop
  | none, a, b => b = a
  | some (.sent _ m), a, b => box.send m a = some b
  | some (.got _ m), a, b => box.read a = some (m, b)

/-- One call at the end of a run. -/
theorem Mailbox.run_concat {τ : Type*} {box : Mailbox α τ} {a b c : τ} {got : List α}
    (e : Option (Event ι α)) (hrun : box.run a (calls events) = some (got, b))
    (hdoes : box.Does e b c) :
    box.run a (calls (events ++ e.toList)) = some (got ++ e.toList.filterMap Event.reading, c) := by
  induction events generalizing a got with
  -- Nothing has happened before the step, so that `b` is where the run starts.
  | nil =>
      obtain ⟨rfl, rfl⟩ := Prod.mk.inj (Option.some.inj hrun)
      cases e with
      | none =>
          obtain rfl := hdoes
          rfl
      | some e =>
          cases e with
          | sent i m => exact Mailbox.run_send hdoes
          | got i m => exact Mailbox.run_read hdoes rfl
  | cons first events ih =>
      cases first with
      | sent i m =>
          obtain ⟨a₁, hsend, hrest⟩ := Mailbox.of_run_send hrun
          exact (Mailbox.run_send hsend).trans (ih hrest)
      | got i m =>
          obtain ⟨m', a₁, rest, hread, hrest, rfl⟩ := Mailbox.of_run_read hrun
          exact Mailbox.run_read hread (ih hrest)

/-! ### The threads -/

/-- What a thread shows: the calls that have not taken effect yet, and the messages that it sent and
got so far. -/
structure View (θ α : Type*) where
  left : θ → List (Call α)
  sent : θ → List α
  got : θ → List α

variable {θ τ : Type*} {view : View θ α} {box : Mailbox α τ} {e : Option (Event ι α)}
  {f g g' : ι → θ} {a b c : τ}

/-- A step of the thread `i` with the event `e`, which changes the threads and the store. -/
structure Effect (view : View θ α) (box : Mailbox α τ) (e : Option (Event ι α)) (i : ι)
    (f f' : ι → θ) (a b : τ) : Prop where
  others : ∀ j, j ≠ i → f' j = f j
  own : ∀ x, e = some x → x.thread = i
  left : view.left (f i) = e.toList.map Event.call ++ view.left (f' i)
  sent : view.sent (f' i) = view.sent (f i) ++ e.toList.filterMap Event.sending
  got : view.got (f' i) = view.got (f i) ++ e.toList.filterMap Event.reading
  does : box.Does e a b

variable [DecidableEq ι]

/-- A step of the thread `i` without an event. -/
theorem Effect.quiet {t : θ} (hthread : g = Function.update f i t) (hstore : b = a)
    (hleft : view.left t = view.left (f i)) (hsent : view.sent t = view.sent (f i))
    (hgot : view.got t = view.got (f i)) : Effect view box none i f g a b := by
  rw [hthread]
  constructor
  · intro j hj
    exact Function.update_of_ne hj t f
  · intro x hx
    cases hx
  · rw [Function.update_self]
    exact hleft.symm
  · rw [Function.update_self]
    exact hsent.trans (List.append_nil _).symm
  · rw [Function.update_self]
    exact hgot.trans (List.append_nil _).symm
  · exact hstore

/-- A step of the thread `i` with which its next call takes effect. -/
theorem Effect.call {t : θ} {x : Event ι α} (hown : x.thread = i)
    (hthread : g = Function.update f i t) (hleft : view.left (f i) = x.call :: view.left t)
    (hsent : view.sent t = view.sent (f i) ++ x.sending.toList)
    (hgot : view.got t = view.got (f i) ++ x.reading.toList) (hdoes : box.Does (some x) a b) :
    Effect view box (some x) i f g a b := by
  rw [hthread]
  constructor
  · intro j hj
    exact Function.update_of_ne hj t f
  · intro y hy
    rw [← Option.some.inj hy, hown]
  · rw [Function.update_self]
    exact hleft
  · rw [Function.update_self, hsent]
    cases x <;> rfl
  · rw [Function.update_self, hgot]
    cases x <;> rfl
  · exact hdoes

/-- The events of a thread in two parts of a history. -/
theorem eventsOf_append (j : ι) (events events' : List (Event ι α)) :
    eventsOf j (events ++ events') = eventsOf j events ++ eventsOf j events' :=
  List.filter_append _ _

/-- An event of the thread is one of its events. -/
theorem eventsOf_cons_self {x : Event ι α} (hx : x.thread = i) :
    eventsOf i (x :: events) = x :: eventsOf i events :=
  List.filter_cons_of_pos (decide_eq_true hx)

/-- An event of another thread is none of its events. -/
theorem eventsOf_cons_other {x : Event ι α} (hx : x.thread ≠ i) :
    eventsOf i (x :: events) = eventsOf i events :=
  List.filter_cons_of_neg fun h => hx (of_decide_eq_true h)

/-- The event of a step is one of its thread. -/
theorem Effect.eventsOf_self (h : Effect view box e i f g a b) :
    eventsOf i e.toList = e.toList := by
  refine List.filter_eq_self.mpr ?_
  intro x hx
  exact decide_eq_true (h.own x (Option.mem_toList.mp hx))

/-- It is not one of another thread. -/
theorem Effect.eventsOf_other (h : Effect view box e i f g a b) {j : ι} (hj : j ≠ i) :
    eventsOf j e.toList = [] := by
  refine List.filter_eq_nil_iff.mpr ?_
  intro x hx
  have hown := h.own x (Option.mem_toList.mp hx)
  exact fun hthread => hj ((of_decide_eq_true hthread).symm.trans hown)

/-- The calls took effect one after the other, in the order of the events: they are a run of the
mailbox, with the same results. The events of a thread are the first ones of its calls, and it
recorded what they sent and read. -/
structure Linearized (view : View θ α) (box : Mailbox α τ) (events : List (Event ι α))
    (f g : ι → θ) (a b : τ) : Prop where
  atomic : box.run a (calls events) = some (readings events, b)
  program : ∀ i, view.left (f i) = (eventsOf i events).map Event.call ++ view.left (g i)
  sent : ∀ i, view.sent (g i) = view.sent (f i) ++ (eventsOf i events).filterMap Event.sending
  got : ∀ i, view.got (g i) = view.got (f i) ++ (eventsOf i events).filterMap Event.reading

/-- One step more. -/
theorem Linearized.concat (h : Linearized view box events f g a b)
    (heffect : Effect view box e i g g' b c) :
    Linearized view box (events ++ e.toList) f g' a c := by
  constructor
  · rw [Mailbox.run_concat e h.atomic heffect.does, readings, readings, List.filterMap_append]
  · intro j
    rw [h.program j, eventsOf_append, List.map_append, List.append_assoc]
    -- Only the thread of the step has a new event, and only its calls change.
    by_cases hj : j = i
    · rw [hj, heffect.eventsOf_self, heffect.left]
    · rw [heffect.eventsOf_other hj, heffect.others j hj]
      rfl
  · intro j
    rw [eventsOf_append, List.filterMap_append, ← List.append_assoc, ← h.sent j]
    by_cases hj : j = i
    · rw [hj, heffect.eventsOf_self, heffect.sent]
    · rw [heffect.eventsOf_other hj, heffect.others j hj]
      exact (List.append_nil _).symm
  · intro j
    rw [eventsOf_append, List.filterMap_append, ← List.append_assoc, ← h.got j]
    by_cases hj : j = i
    · rw [hj, heffect.eventsOf_self, heffect.got]
    · rw [heffect.eventsOf_other hj, heffect.others j hj]
      exact (List.append_nil _).symm

/-- The rule for a system of threads: it is enough to look at its steps. -/
theorem history_linearized {thread : σ → ι → θ} {store : σ → τ} {I : σ → Prop}
    (hkeeps : ∀ s i s', I s → next s i = some s' → I s')
    (heffect : ∀ s i s', I s → next s i = some s' →
      Effect view box (event s i) i (thread s) (thread s') (store s) (store s'))
    (h : I s) (hrun : history next event s schedule = some (events, t)) :
    Linearized view box events (thread s) (thread t) (store s) (store t) := by
  -- The invariant goes along: a step has its effect only where it holds.
  have hall : I t ∧ Linearized view box events (thread s) (thread t) (store s) (store t) := by
    refine history_invariant
      (P := fun events u => I u ∧
        Linearized view box events (thread s) (thread u) (store s) (store u)) ?_ [] ⟨h, ?_⟩ hrun
    · rintro events u i u' ⟨hu, hlinear⟩ hnext
      exact ⟨hkeeps u i u' hu hnext, hlinear.concat (heffect u i u' hu hnext)⟩
    · exact ⟨rfl, fun _ => rfl, fun _ => (List.append_nil _).symm,
        fun _ => (List.append_nil _).symm⟩
  exact hall.2

/-- Another mailbox that does the same is as good. -/
theorem Linearized.simulates {τ' : Type*} {box' : Mailbox α τ'} {R : τ → τ' → Prop} {a' : τ'}
    (h : Linearized view box events f g a b) (hbox : box.Simulates box' id R) (hR : R a a') :
    ∃ b', Linearized view box' events f g a' b' ∧ R b b' := by
  obtain ⟨b', hrun, hR'⟩ := hbox.run_same hR h.atomic
  exact ⟨b', ⟨hrun, h.program, h.sent, h.got⟩, hR'⟩

/-- A thread that starts with nothing sent: what it sent, and then what it will send. -/
theorem Linearized.sent_left (h : Linearized view box events f g a b) {i : ι}
    (hnew : view.sent (f i) = []) :
    view.sent (g i) ++ sends (view.left (g i)) = sends (view.left (f i)) := by
  have hcalls := sends_calls (eventsOf i events)
  rw [h.program i, sends_append, h.sent i, hnew, List.nil_append, ← hcalls]
  rfl

/-- Each call of `read` of a program has got a message, or it is left. With the messages that it got
a thread is as far in its program as the history says. -/
theorem Linearized.got_left (h : Linearized view box events f g a b) {i : ι}
    (hnew : view.got (f i) = []) :
    (view.got (g i)).length + reads (view.left (g i)) = reads (view.left (f i)) := by
  have hcalls := reads_calls (eventsOf i events)
  rw [h.program i, reads_append, h.got i, hnew, List.nil_append]
  exact congrArg (· + reads (view.left (g i))) hcalls.symm

/-! ### What a reader gets -/

/-- The messages that the events of the thread `i` sent are the ones that came from it. -/
theorem sends_of_thread {who : α → ι} (i : ι)
    (h : ∀ e ∈ events, ∀ m, e.sending = some m → who m = e.thread) :
    (sends (calls events)).filter (fun m => who m = i)
      = (eventsOf i events).filterMap Event.sending := by
  induction events with
  | nil => rfl
  | cons e events ih =>
      have hrest := ih fun x hx => h x (List.mem_cons_of_mem e hx)
      by_cases hi : e.thread = i
      · rw [eventsOf_cons_self hi]
        cases e with
        | sent j m =>
            have hwho : who m = i := (h _ List.mem_cons_self m rfl).trans hi
            have hcons : ((m :: sends (calls events)).filter fun m => who m = i)
                = m :: (sends (calls events)).filter fun m => who m = i :=
              List.filter_cons_of_pos (decide_eq_true hwho)
            exact hcons.trans (congrArg (m :: ·) hrest)
        | got j m => exact hrest
      · rw [eventsOf_cons_other hi, ← hrest]
        cases e with
        | sent j m =>
            have hwho : who m ≠ i := fun hm => hi ((h _ List.mem_cons_self m rfl).symm.trans hm)
            exact List.filter_cons_of_neg fun hm => hwho (of_decide_eq_true hm)
        | got j m => rfl

/-- A message that an event sent is in a call of its thread. -/
theorem Linearized.mem_left (h : Linearized view box events f g a b) {x : Event ι α}
    (hx : x ∈ events) : x.call ∈ view.left (f x.thread) := by
  rw [h.program]
  refine List.mem_append_left _ (List.mem_map_of_mem (List.mem_filter.mpr ⟨hx, ?_⟩))
  exact decide_eq_true rfl

/-- What one thread gets is a part of what all threads read. -/
theorem readings_sublist (j : ι) (events : List (Event ι α)) :
    ((eventsOf j events).filterMap Event.reading).Sublist (readings events) :=
  List.filter_sublist.filterMap _

/-- It is all of it when no other thread reads. -/
theorem Linearized.readings_of (h : Linearized view box events f g a b) {j : ι}
    (honly : ∀ k, k ≠ j → .read ∉ view.left (f k)) :
    (eventsOf j events).filterMap Event.reading = readings events := by
  -- An event that reads is a call of its thread, and only `j` has such calls.
  have hother : ∀ e ∈ events, e.thread ≠ j → e.reading = none := by
    intro e he hne
    cases e with
    | sent k m => rfl
    | got k m => exact absurd (h.mem_left he) (honly k hne)
  -- The rest is about the events alone, and `h` would stand in the way of the induction.
  clear h
  induction events with
  | nil => rfl
  | cons e events ih =>
      have hrest := ih fun x hx => hother x (List.mem_cons_of_mem e hx)
      by_cases hj : e.thread = j
      · rw [eventsOf_cons_self hj, readings, List.filterMap_cons, List.filterMap_cons, hrest]
        rfl
      · rw [eventsOf_cons_other hj, hrest]
        exact (List.filterMap_cons_none (hother e List.mem_cons_self hj)).symm

variable {P Q : α → Bool} {who : α → ι} {classes : Classes α}

omit [DecidableEq ι] in
/-- The messages of one class that were sent are the ones that were read, and then the ones that are
still there. -/
theorem byArrival_class (hQ : Q = P ∨ Q = fun m => !P m)
    (h : (byArrival P).run ⟨[], []⟩ (calls events) = some (readings events, classes)) :
    (sends (calls events)).filter Q = (readings events ++ classes.list).filter Q := by
  have hfirst := byArrival_first Classes.sorted_empty h
  obtain ⟨hsorted, hrest⟩ := twoClass_rest (fun m l => List.perm_append_singleton m l)
    Classes.sorted_empty h
  rw [List.filter_append, Classes.list, List.filter_append]
  rcases hQ with hQ | hQ
  -- The first class: the other one has no message of it, so that its order says nothing here.
  · have hnone : classes.rest.filter P = [] :=
      List.filter_eq_nil_iff.mpr fun m hm => by simp [hsorted.rest m hm]
    rw [hQ, hnone, List.append_nil, List.filter_eq_self.mpr hsorted.first]
    exact hfirst
  -- The other class, in the same way.
  · have hnone : classes.first.filter (fun m => !P m) = [] :=
      List.filter_eq_nil_iff.mpr fun m hm => by simp [hsorted.first m hm]
    have hall : classes.rest.filter (fun m => !P m) = classes.rest :=
      List.filter_eq_self.mpr fun m hm => by simp [hsorted.rest m hm]
    rw [hQ, hnone, List.nil_append, hall]
    exact hrest

/-- Of each class, what all threads read from the sender `i` and what is left of it is what `i`
sent. -/
theorem Linearized.sender (h : Linearized view (byArrival P) events f g ⟨[], []⟩ classes)
    (hwho : ∀ i m, .send m ∈ view.left (f i) → who m = i) (hnew : ∀ i, view.sent (f i) = [])
    (hQ : Q = P ∨ Q = fun m => !P m) (i : ι) :
    ((readings events ++ classes.list).filter Q).filter (fun m => who m = i)
      = (view.sent (g i)).filter Q := by
  -- What an event sent was in the program of its thread, so that it bears its name.
  have hthread : ∀ e ∈ events, ∀ m, e.sending = some m → who m = e.thread := by
    intro e he m hm
    cases e with
    | sent k x =>
        obtain rfl := Option.some.inj hm
        exact hwho k x (h.mem_left he)
    | got k x => cases hm
  calc ((readings events ++ classes.list).filter Q).filter (fun m => who m = i)
      = ((sends (calls events)).filter Q).filter (fun m => who m = i) := by
        rw [byArrival_class hQ h.atomic]
    _ = ((sends (calls events)).filter fun m => who m = i).filter Q := List.filter_comm _ _ _
    _ = (view.sent (g i)).filter Q := by
        rw [sends_of_thread i hthread, h.sent i, hnew i, List.nil_append]

/-- Of each class, a reader gets the messages of the sender `i` in the order in which they were
sent. -/
theorem Linearized.reader (h : Linearized view (byArrival P) events f g ⟨[], []⟩ classes)
    (hwho : ∀ i m, .send m ∈ view.left (f i) → who m = i) (hnew : ∀ i, view.sent (f i) = [])
    (hread : ∀ i, view.got (f i) = []) (hQ : Q = P ∨ Q = fun m => !P m) (i j : ι) :
    (((view.got (g j)).filter Q).filter fun m => who m = i).Sublist
      ((view.sent (g i)).filter Q) := by
  rw [← h.sender hwho hnew hQ i, h.got j, hread j, List.nil_append]
  refine ((List.Sublist.trans ?_ (List.sublist_append_left _ classes.list)).filter _).filter _
  exact readings_sublist j events

/-- The only reader gets all of them up to the ones that are left. -/
theorem Linearized.reader_only (h : Linearized view (byArrival P) events f g ⟨[], []⟩ classes)
    (hwho : ∀ i m, .send m ∈ view.left (f i) → who m = i) (hnew : ∀ i, view.sent (f i) = [])
    (hread : ∀ i, view.got (f i) = []) (hQ : Q = P ∨ Q = fun m => !P m) {j : ι}
    (honly : ∀ k, k ≠ j → .read ∉ view.left (f k)) (i : ι) :
    ((view.got (g j) ++ classes.list).filter Q).filter (fun m => who m = i)
      = (view.sent (g i)).filter Q := by
  rw [← h.sender hwho hnew hQ i, h.got j, hread j, List.nil_append, h.readings_of honly]

end

end Soi.Lib
