import Mathlib.Logic.Function.Basic

/-!
# `Soi.Lib.Handoff`: a monitor that hands itself over to a waiting thread

In a monitor each condition `c` stands for a number of units `room c` that a thread needs one of.
A thread that finds none waits, and `wait c` is the number of the threads that wait for `c`
and that nobody has signalled yet. A thread that uses a unit of `c` makes one of `d`. When it made
the first one and somebody waits for it, it hands the monitor over to one of these threads.

What holds is one of three facts, one for each kind of owner of the monitor:

* `Calm`: whoever waits has nothing to use, when the monitor is free or its owner has not used
  anything;
* `HandedTo c`: there is one unit of `c`, and the owner will be a thread that waited for it;
* `Served c`: there is a unit of `c` for the owner.

Since no other thread comes in between, the one unit is still there when the thread that waited
for it goes on, and it does not have to test again. When two threads wait for `c` and two units
are made, the second one is made after the first one was used, so that `room c` is 1 both times.
-/

set_option autoImplicit false

namespace Soi.Lib

section
variable {κ : Type*} {wait room room' : κ → Nat} {c d : κ}

/-- Nobody waits for a unit that is there. -/
def Calm (wait room : κ → Nat) : Prop := ∀ e, wait e ≠ 0 → room e = 0

/-- The one unit of `c` is for a thread that waited for it. -/
structure HandedTo (wait room : κ → Nat) (c : κ) : Prop where
  room_eq : room c = 1
  others : ∀ e, e ≠ c → wait e ≠ 0 → room e = 0

/-- There is a unit of `c`. -/
structure Served (wait room : κ → Nat) (c : κ) : Prop where
  room_ne : room c ≠ 0
  own : wait c ≠ 0 → room c = 1
  others : ∀ e, e ≠ c → wait e ≠ 0 → room e = 0

/-- A unit of `c` was used and one of `d` was made. -/
structure Moved (room room' : κ → Nat) (c d : κ) : Prop where
  used : room' c + 1 = room c
  made : room' d = room d + 1
  others : ∀ e, e ≠ c → e ≠ d → room' e = room e

/-- A thread that does not wait. -/
theorem Calm.served (h : Calm wait room) (hroom : room c ≠ 0) : Served wait room c where
  room_ne := hroom
  own hwait := absurd (h c hwait) hroom
  others e _ := h e

/-- A thread that waited. -/
theorem HandedTo.served (h : HandedTo wait room c) : Served wait room c where
  room_ne := by
    rw [h.room_eq]
    exact Nat.one_ne_zero
  own _ := h.room_eq
  others := h.others

/-- After the use of `c` nobody waits in vain, unless it is for the first unit of `d`. -/
theorem Served.calm (h : Served wait room c) (hmoved : Moved room room' c d)
    (hdone : room' d ≠ 1 ∨ wait d = 0) : Calm wait room' := by
  intro e hwait
  by_cases hc : e = c
  · subst hc
    have := h.own hwait
    have := hmoved.used
    omega
  · have hroom := h.others e hc hwait
    by_cases hd : e = d
    · subst hd
      have := hmoved.made
      omega
    · rw [hmoved.others e hc hd, hroom]

variable [DecidableEq κ]

/-- One more thread waits. -/
theorem Calm.enqueue (h : Calm wait room) (hroom : room c = 0) (n : Nat) :
    Calm (Function.update wait c n) room := by
  intro e hwait
  by_cases hc : e = c
  · rw [hc, hroom]
  · rw [Function.update_of_ne hc] at hwait
    exact h e hwait

/-- After the use of `c` the first unit of `d` goes to a thread that waits for it. -/
theorem Served.handedTo (h : Served wait room c) (hmoved : Moved room room' c d)
    (hroom : room' d = 1) (n : Nat) : HandedTo (Function.update wait d n) room' d where
  room_eq := hroom
  others e hd hwait := by
    rw [Function.update_of_ne hd] at hwait
    by_cases hc : e = c
    · subst hc
      have := h.own hwait
      have := hmoved.used
      omega
    · rw [hmoved.others e hc hd, h.others e hc hwait]

end

end Soi.Lib
