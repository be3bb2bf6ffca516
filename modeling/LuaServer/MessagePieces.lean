import Mathlib.Data.List.Infix
import Mathlib.Tactic.Common

/-!
# Messages in pieces

A message that is too long is cut into pieces, and with each piece goes the number of those
that follow it.  The pieces of many messages make one stream, from which the messages are
read back one after the other.
-/

namespace LuaServer

namespace MessagePieces

variable {Part : Type*}

/-- The pieces of a message. -/
def pieces : List Part → List (Nat × Part)
  | [] => []
  | part :: parts => (parts.length, part) :: pieces parts

/-- The parts up to the first piece that nothing follows, and the pieces behind it. -/
def takeMessage : List (Nat × Part) → List Part × List (Nat × Part)
  | [] => ([], [])
  | (left, part) :: rest =>
      if left = 0 then ([part], rest)
      else
        let (parts, rest) := takeMessage rest
        (part :: parts, rest)

@[simp]
theorem length_pieces (parts : List Part) : (pieces parts).length = parts.length := by
  induction parts with
  | nil => rfl
  | cons part parts ih => rw [pieces, List.length_cons, ih, List.length_cons]

@[simp]
theorem map_snd_pieces (parts : List Part) : (pieces parts).map (·.2) = parts := by
  induction parts with
  | nil => rfl
  | cons part parts ih => rw [pieces, List.map_cons, ih]

theorem fst_lt_of_mem_pieces {parts : List Part} {piece : Nat × Part}
    (member : piece ∈ pieces parts) : piece.1 < parts.length := by
  induction parts with
  | nil => exact absurd member List.not_mem_nil
  | cons part parts ih =>
      rw [List.length_cons]
      rcases List.mem_cons.mp member with rfl | later
      · exact Nat.lt_succ_self _
      · exact (ih later).trans (Nat.lt_succ_self _)

/-- The first message of a stream is read back, whatever follows. -/
theorem takeMessage_pieces {parts : List Part} (some_ : parts ≠ []) (rest : List (Nat × Part)) :
    takeMessage (pieces parts ++ rest) = (parts, rest) := by
  induction parts with
  | nil => exact absurd rfl some_
  | cons part parts ih =>
      rw [pieces, List.cons_append, takeMessage]
      cases parts with
      | nil => rfl
      | cons next parts =>
          rw [if_neg (by simp), ih (List.cons_ne_nil next parts)]

/-- What has arrived of a stream begins with a whole message, when there are as many pieces
as the first one tells. -/
theorem exists_message_of_enough {messages : List (List Part)} {left : Nat} {part : Part}
    {queue : List (Nat × Part)} (some_ : ∀ message ∈ messages, message ≠ [])
    (arrived : (left, part) :: queue <+: messages.flatMap pieces)
    (enough : left ≤ queue.length) :
    ∃ message others rest, messages = message :: others ∧ left + 1 = message.length ∧
      (left, part) :: queue = pieces message ++ rest ∧ rest <+: others.flatMap pieces := by
  cases messages with
  | nil => exact absurd arrived.length_le (by simp)
  | cons message others =>
      cases message with
      | nil => exact absurd rfl (some_ [] List.mem_cons_self)
      | cons first parts =>
          rw [List.flatMap_cons, pieces] at arrived
          obtain ⟨same, behind⟩ := List.cons_prefix_cons.mp arrived
          obtain ⟨rfl, rfl⟩ := Prod.mk.inj same
          have whole : pieces parts <+: queue :=
            List.prefix_of_prefix_length_le (List.prefix_append ..) behind
              (by rwa [length_pieces])
          obtain ⟨rest, rfl⟩ := whole
          exact ⟨_, _, rest, rfl, rfl, rfl, (List.prefix_append_right_inj _).mp behind⟩

end MessagePieces

end LuaServer
