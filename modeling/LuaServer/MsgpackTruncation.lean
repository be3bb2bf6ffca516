import LuaServer.MsgpackReading

/-!
# Truncated MessagePack input

A proper prefix of an encoding runs out of bytes before its value is complete.
The decoder notices it when that happens between two tokens, and reads on behind
the end when it happens inside one.
-/

namespace LuaServer

namespace Msgpack

open Lua Decoded

/-- The decoder has read the byte at the offset, as it reads all bytes up to where
it leaves the parser. -/
def Decoded.Reads : Decoded Nat → Nat → Prop
  | .returned _ ps, offset => offset < ps
  | .raised _ ps, offset => offset < ps
  | .overrun ps, offset => offset < ps
  | .unfinished, _ => True

/-- What decoding must do for a string in memory: it reads nothing behind the end,
and raises its error for a proper prefix of an encoding. -/
structure Rejects (floats : Floats) (memory : Memory) : Prop where
  inside : ∀ offset, (decodeString floats memory).Reads offset → offset < memory.bytes.length
  prefixes : ∀ bufflen value encoded, value.All Value.IsStored →
    encodeValue floats bufflen value = some encoded → memory.bytes <+: encoded →
    memory.bytes ≠ encoded → ∃ ps, decodeString floats memory = .raised .unpack ps

/-- More bytes stand behind the second input. -/
def Extends (more : ByteString) (state other : Option ByteString) : Prop :=
  ∃ rest, state = some rest ∧ other = some (rest ++ more)

/-- The input has come to an end, or a token was cut off. -/
def Stopped (state : Option ByteString) : Prop :=
  state = none ∨ state = some []

/-- A parser that looks before it reads takes the same tokens of a longer input. -/
theorem parseWithin_append (floats : Floats) (front more : ByteString) :
    (parseWithin floats (some front)).1 = (parseWithin floats (some (front ++ more))).1 ∧
        Extends more (parseWithin floats (some front)).2
          (parseWithin floats (some (front ++ more))).2 ∨
      (parseWithin floats (some front)).1 = .ERR ∧
        Stopped (parseWithin floats (some front)).2 := by
  cases front with
  | nil => exact Or.inr ⟨rfl, Or.inr rfl⟩
  | cons m rest =>
      rw [List.cons_append, parseWithin, parseWithin]
      rcases header floats m with ⟨size, meaning⟩
      simp only
      by_cases short : rest.length < size
      · rw [if_pos short]
        exact Or.inr ⟨rfl, Or.inl rfl⟩
      · have enough : size ≤ rest.length := not_lt.mp short
        have notShort : ¬ (rest ++ more).length < size := by
          rw [List.length_append]
          omega
        rw [if_neg short, if_neg notShort, List.take_append_of_le_length enough,
          List.drop_append_of_le_length enough]
        cases meaning (fieldValue (rest.take size)) with
        | val val => exact Or.inl ⟨rfl, rest.drop size, rfl, rfl⟩
        | content len =>
            simp only
            by_cases cut : (rest.drop size).length < len
            · rw [if_pos cut]
              exact Or.inr ⟨rfl, Or.inl rfl⟩
            · have whole : len ≤ (rest.drop size).length := not_lt.mp cut
              have notCut : ¬ (rest.drop size ++ more).length < len := by
                rw [List.length_append]
                omega
              rw [if_neg cut, if_neg notCut, List.take_append_of_le_length whole,
                List.drop_append_of_le_length whole]
              exact Or.inl ⟨rfl, _, rfl, rfl⟩

/-- The number of bytes that are left. -/
def remaining (state : Option ByteString) : Nat :=
  (state.getD []).length

theorem parseWithin_takes (floats : Floats) (state : Option ByteString)
    (found : (parseWithin floats state).1 ≠ .ERR) :
    remaining (parseWithin floats state).2 < remaining state := by
  match state with
  | none => exact absurd rfl found
  | some [] => exact absurd rfl found
  | some (m :: rest) =>
      rw [parseWithin] at found ⊢
      rcases header floats m with ⟨size, meaning⟩
      simp only at found ⊢
      have shorter : ∀ count more, ((rest.drop count).drop more).length < (m :: rest).length := by
        intro count more
        simp only [List.length_drop, List.length_cons]
        omega
      split
      · exact Nat.succ_pos _
      · split
        · exact shorter size 0
        · split
          · exact Nat.succ_pos _
          · exact shorter size _

theorem decodeWithin_finishes (floats : Floats) (bytes : ByteString) :
    decodeWithin floats bytes ≠ .unfinished :=
  ((decode_finishes (parseWithin_takes floats) _).1 0 (some bytes)
    (by simp [remaining])).ne_unfinished

/-- A proper prefix of the wire form of a value ends before the value does. -/
theorem decodeWithin_prefix {floats : Floats} {value : Value}
    (stored : value.All Value.IsStored) {front more : ByteString}
    (isWire : wire floats value = front ++ more) (proper : more ≠ []) :
    ∃ state, decodeWithin floats front = .raised .unpack state := by
  have finishes := decodeWithin_finishes floats front
  have steps : ∀ state other, Extends more state other →
      (parseWithin floats state).1 = (parseWithin floats other).1 ∧
          Extends more (parseWithin floats state).2 (parseWithin floats other).2 ∨
        (parseWithin floats state).1 = .ERR ∧ Stopped (parseWithin floats state).2 ∧ True := by
    rintro state other ⟨rest, rfl, rfl⟩
    simpa using parseWithin_append floats rest more
  have follows : Follows (Extends more) Stopped (fun _ => True)
      (decode (fun _ => true) (parseWithin floats) (2 * front.length + 1) 0 (some front))
      (decode (fun _ => true) (parseWithin floats) (2 * front.length + 1) 0
        (some (front ++ more))) :=
    (decode_simulates steps (fun _ _ => trivial) _).1 _ _ _ ⟨front, rfl, rfl⟩
  rcases follows with agree | ⟨⟨state, stops, -⟩, -⟩
  · -- The run over the whole wire form would have to stop here, too.
    exfalso
    rw [decodeWithin, decodeWithinOn] at finishes
    have alsoFinishes : decode (fun _ => true) (parseWithin floats) (2 * front.length + 1) 0
        (some (front ++ more)) ≠ .unfinished := by
      intro unfinished
      rw [unfinished] at agree
      cases first : decode (fun _ => true) (parseWithin floats) (2 * front.length + 1) 0
        (some front) <;> simp_all [Agree]
    have whole := ((@decodes_wire floats value stored).decoded (fun _ => true)
      (max (2 * front.length + 1) (2 * (wire floats value).length)) 0 []
      (le_max_right _ _)).returns fun _ _ => rfl
    rw [List.append_nil, isWire, decode_mono (le_max_left _ _) alsoFinishes] at whole
    rw [whole] at agree
    cases first : decode (fun _ => true) (parseWithin floats) (2 * front.length + 1) 0
        (some front) with
    | returned other state =>
        rw [first] at agree
        obtain ⟨-, rest, -, ends⟩ := agree
        simp [proper] at ends
    | raised | overrun => rw [first] at agree; exact agree
    | unfinished => exact finishes first
  · exact ⟨state, stops.resolve_right ((decode_ne_overrun _).1 _ _ _)⟩

/-- Decoding rejects malformed input exactly when no token is cut off. -/
theorem rejects_iff (floats : Floats) (memory : Memory) :
    Rejects floats memory ↔ ¬ CutOff floats memory.bytes := by
  rw [← inside_iff]
  have finishes := decodeString_finishes floats memory
  have reads : (decodeString floats memory).Ends (· ≤ memory.bytes.length) ↔
      ∀ offset, (decodeString floats memory).Reads offset → offset < memory.bytes.length := by
    cases decoded : decodeString floats memory with
    | returned value ps => exact ⟨fun upTo offset less => lt_of_lt_of_le less upTo,
        fun all => not_lt.mp fun less => lt_irrefl _ (all _ less)⟩
    | raised error ps => exact ⟨fun upTo offset less => lt_of_lt_of_le less upTo,
        fun all => not_lt.mp fun less => lt_irrefl _ (all _ less)⟩
    | overrun ps => exact absurd decoded (decodeString_ne_overrun floats memory ps)
    | unfinished => exact absurd decoded finishes
  constructor
  · exact fun rejects => reads.mpr rejects.inside
  · intro ends
    refine ⟨reads.mp ends, ?_⟩
    intro bufflen value encoded stored returned isPrefix proper
    obtain ⟨more, rfl⟩ := isPrefix
    obtain ⟨state, stops⟩ := decodeWithin_prefix stored
      (encodeValue_eq_some returned).1.symm fun empty => proper (by rw [empty, List.append_nil])
    rcases decodeString_follows floats memory with agree | ⟨cut, -⟩
    · rw [stops] at agree
      cases decoded : decodeString floats memory with
      | raised error ps =>
          rw [decoded] at agree
          exact ⟨ps, by rw [agree.1]⟩
      | returned | overrun => rw [decoded] at agree; exact agree.elim
      | unfinished => exact absurd decoded finishes
    · exact absurd cut ((inside_iff floats memory).mp ends)

/-- The head of a string of one byte, without the byte. -/
theorem not_rejects_string :
    ¬ Rejects ⟨fun bits => bits % 2 ^ 32, id, fun bits => Nat.mod_lt bits (Nat.two_pow_pos 32)⟩
      ⟨[0xa1], fun _ => 0⟩ := by
  intro rejects
  have decoded : decodeString
      ⟨fun bits => bits % 2 ^ 32, id, fun bits => Nat.mod_lt bits (Nat.two_pow_pos 32)⟩
      ⟨[0xa1], fun _ => 0⟩ = .returned (.string [0]) 2 := rfl
  have inside := rejects.inside 1
  rw [decoded] at inside
  exact absurd (inside Nat.one_lt_two) (lt_irrefl 1)

end Msgpack

end LuaServer
