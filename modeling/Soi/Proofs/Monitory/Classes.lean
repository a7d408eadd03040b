import Soi.Lib.Mailbox
import Soi.Proofs.Monitory.Buffer

/-!
# `Soi.Proofs.Monitory.Classes`: the buffer under any sequence of calls

`find_next_pri` counts the messages of priority in the whole list, and then it takes that many
steps from the front. This is the end of the messages of priority only when all of them are in
front of the other ones. Each call keeps it so: `mailbox_simulates` relates the list to
`Lib.byArrival`, which has one list for each class. `buffer_stable` is the result for all
sequences of calls on a new buffer.
-/

set_option autoImplicit false

namespace Soi.Monitory

open Soi.Lib (Mailbox Classes sends byArrival twoClass_rest byArrival_first)

/-- `m.pri == 1`. -/
def Message.isPri (m : Message) : Bool := m.pri == 1

namespace Buffer

/-- The calls of `send_msg` and `read_msg`, one after the other. A list that is empty is not
read. -/
def mailbox : Mailbox Message (List Message) where
  send m buffer := some (send m buffer)
  read := read

/-- The priority messages first: then the node of `find_next_pri` is the last one of them, or
`before_begin()` when there is none. -/
theorem findNextPri_list {c : Classes Message} (h : c.Sorted Message.isPri) :
    findNextPri c.list = c.first.length := by
  have hfirst : c.first.countP Message.isPri = c.first.length :=
    List.countP_eq_length.mpr h.first
  have hrest : c.rest.countP Message.isPri = 0 :=
    List.countP_eq_zero.mpr fun m hm => by simp [h.rest m hm]
  rw [findNextPri_eq]
  show (c.first ++ c.rest).countP Message.isPri = c.first.length
  rw [List.countP_append, hfirst, hrest, Nat.add_zero]

/-- A message of priority goes behind the other ones of priority. -/
theorem send_pri {c : Classes Message} (h : c.Sorted Message.isPri) {m : Message}
    (hm : m.isPri = true) : send m c.list = c.first ++ [m] ++ c.rest := by
  have hpri : m.pri = 1 := by simpa [Message.isPri] using hm
  rw [send, if_pos hpri, findNextPri_list h, insertAfter]
  simp [Classes.list]

/-- Any other message goes behind all of them. -/
theorem send_other (buffer : List Message) {m : Message} (hm : m.isPri = false) :
    send m buffer = buffer ++ [m] := by
  have hpri : m.pri ≠ 1 := by simpa [Message.isPri] using hm
  rw [send, if_neg hpri, findLast_eq, insertAfter, List.take_length, List.drop_length]

/-- What the list does, the two classes do. -/
theorem mailbox_simulates : mailbox.Simulates (byArrival Message.isPri) id
    fun buffer c => c.Sorted Message.isPri ∧ c.list = buffer where
  send m buffer buffer' c := by
    rintro ⟨h, rfl⟩ hsend
    obtain rfl := Option.some.inj hsend
    refine ⟨_, rfl, h.of_send (fun m l => List.perm_append_singleton m l) rfl, ?_⟩
    by_cases hm : m.isPri = true
    · rw [send_pri h hm]
      simp [Classes.list, hm]
    · rw [send_other _ (Bool.eq_false_iff.mpr hm)]
      simp [Classes.list, hm]
  read m buffer buffer' c := by
    rintro ⟨h, hlist⟩ hread
    cases buffer with
    | nil => cases hread
    | cons x buffer =>
        obtain ⟨rfl, rfl⟩ := Prod.mk.inj (Option.some.inj hread)
        obtain ⟨c', hc', hlist'⟩ := Classes.read_of_list hlist
        exact ⟨c', hc', h.of_read hc', hlist'⟩

/-- The buffer after some calls that delivered the messages `got`. -/
structure Stable (calls : List (Lib.Call Message)) (got buffer first rest : List Message) :
    Prop where
  /-- The messages of priority are in front. -/
  split : buffer = first ++ rest
  first_pri : ∀ m ∈ first, m.pri = 1
  rest_pri : ∀ m ∈ rest, m.pri ≠ 1
  /-- They are the ones that were not read yet, in the order of arrival. -/
  first_order : (sends calls).filter Message.isPri = got.filter Message.isPri ++ first
  rest_order : (sends calls).filter (fun m => !m.isPri)
    = got.filter (fun m => !m.isPri) ++ rest
  /-- `find_next_pri` is the last message of priority, or `before_begin()`. -/
  next_pri : findNextPri buffer = first.length
  /-- `find_last` is the last message, or `before_begin()`. -/
  last : findLast buffer = buffer.length
  /-- `read_msg` takes the oldest message of priority, or the oldest of all. -/
  oldest : (read buffer).map Prod.fst = first.head?.or rest.head?

end Buffer

open Buffer in
/-- A new buffer, and any calls of `send_msg` and `read_msg`. -/
theorem buffer_stable (calls : List (Lib.Call Message)) (got buffer : List Message)
    (hrun : mailbox.run [] calls = some (got, buffer)) :
    ∃ first rest, Stable calls got buffer first rest := by
  obtain ⟨c, hclasses, hsorted, rfl⟩ :=
    mailbox_simulates.run_same (t := ⟨[], []⟩) ⟨Classes.sorted_empty, rfl⟩ hrun
  have hfirst := byArrival_first Classes.sorted_empty hclasses
  have hrest := (twoClass_rest (fun m l => List.perm_append_singleton m l)
    Classes.sorted_empty hclasses).2
  refine ⟨c.first, c.rest, rfl, ?_, ?_, hfirst, hrest, findNextPri_list hsorted, findLast_eq _,
    ?_⟩
  · exact fun m hm => by simpa [Message.isPri] using hsorted.first m hm
  · exact fun m hm => by simpa [Message.isPri] using hsorted.rest m hm
  · obtain ⟨first, rest⟩ := c
    cases first with
    | cons x first => rfl
    | nil => cases rest <;> rfl

/-- Two messages of priority overtake another one, and keep their order. -/
theorem buffer_stable_tiny : ∃ first rest,
    Buffer.Stable [.send ⟨"r", 0, 0⟩, .send ⟨"R", 1, 1⟩, .send ⟨"O", 1, 1⟩, .read]
      [⟨"R", 1, 1⟩] [⟨"O", 1, 1⟩, ⟨"r", 0, 0⟩] first rest :=
  buffer_stable _ _ _ (by decide)

end Soi.Monitory
