import LuaServer.MsgpackDecoding

/-!
# Where MessagePack input ends

The same decoder over a parser that looks before it reads: a token is cut off
when its type byte is there and its field or the bytes of its string are not.
As long as no token is cut off the two parsers take the same bytes, and at the
first one that is cut off `Unpack::parse` reads behind the end.
-/

namespace LuaServer

namespace Msgpack

open Lua Decoded

/-- Parse a token of what is left of the input, or of nothing once a token was
cut off. -/
def parseWithin (floats : Floats) : Option ByteString → Val × Option ByteString
  | none => (.ERR, none)
  | some [] => (.ERR, some [])
  | some (m :: rest) =>
      let (size, meaning) := header floats m
      if rest.length < size then (.ERR, none)
      else
        match meaning (fieldValue (rest.take size)) with
        | .val val => (val, some (rest.drop size))
        | .content len =>
            if (rest.drop size).length < len then (.ERR, none)
            else (.STR ((rest.drop size).take len), some ((rest.drop size).drop len))

/-- Decode a string and never read behind its end. -/
def decodeWithinOn (room : Nat → Bool) (floats : Floats) (bytes : ByteString) :
    Decoded (Option ByteString) :=
  decode room (parseWithin floats) (2 * bytes.length + 1) 0 (some bytes)

/-- The same on a Lua stack that never ends. -/
def decodeWithin (floats : Floats) (bytes : ByteString) : Decoded (Option ByteString) :=
  decodeWithinOn (fun _ => true) floats bytes

/-- The value the bytes begin with ends in a token that is cut off. -/
def CutOff (floats : Floats) (bytes : ByteString) : Prop :=
  decodeWithin floats bytes = .raised .unpack none

section Memory

variable {memory : Memory}

theorem byteAt_eq {offset : Nat} {m : Byte} {rest : ByteString}
    (here : memory.bytes.drop offset = m :: rest) : memory.byteAt offset = m := by
  have found : memory.bytes[offset]? = some m := by
    rw [← List.head?_drop, here]
    rfl
  rw [Memory.byteAt, found]
  rfl

theorem slice_eq {offset count : Nat} (inside : offset + count ≤ memory.bytes.length) :
    memory.slice offset count = (memory.bytes.drop offset).take count := by
  apply List.ext_getElem
  · simp only [Memory.slice, List.length_map, List.length_range, List.length_take,
      List.length_drop]
    omega
  · intro index lower upper
    simp only [Memory.slice, List.length_map, List.length_range] at lower
    have within : offset + index < memory.bytes.length := by omega
    simp [Memory.slice, Memory.byteAt, within]

/-- The offset has passed `rest` bytes before the end. -/
def At (memory : Memory) (state : Option ByteString) (offset : Nat) : Prop :=
  offset ≤ memory.bytes.length ∧ state = some (memory.bytes.drop offset)

/-- The two parsers take the same token, or it is cut off. -/
theorem parse_step (floats : Floats) {state : Option ByteString} {offset : Nat}
    (isAt : At memory state offset) :
    (parseWithin floats state).1 = (parse floats memory offset).1 ∧
        At memory (parseWithin floats state).2 (parse floats memory offset).2 ∨
      (parseWithin floats state).1 = .ERR ∧ (parseWithin floats state).2 = none ∧
        memory.bytes.length < (parse floats memory offset).2 := by
  obtain ⟨upTo, rfl⟩ := isAt
  cases left : memory.bytes.drop offset with
  | nil =>
      have atEnd := List.drop_eq_nil_iff.mp left
      have ended : offset ≥ memory.bytes.length := atEnd
      refine Or.inl ?_
      rw [parse, if_pos ended]
      exact ⟨rfl, upTo, by rw [left]; rfl⟩
  | cons m rest =>
      have length := congrArg List.length left
      rw [List.length_drop, List.length_cons] at length
      have notEnded : ¬ offset ≥ memory.bytes.length := by omega
      have behind : memory.bytes.drop (offset + 1) = rest := by
        rw [← List.drop_drop, left]
        rfl
      rw [parse, if_neg notEnded, byteAt_eq left, parseWithin]
      rcases header floats m with ⟨size, meaning⟩
      simp only
      by_cases short : rest.length < size
      · refine Or.inr ?_
        rw [if_pos short]
        refine ⟨rfl, rfl, ?_⟩
        cases meaning (fieldValue (memory.slice (offset + 1) size)) <;> simp only <;> omega
      · have field : memory.slice (offset + 1) size = rest.take size := by
          rw [slice_eq (by omega), behind]
        have later : memory.bytes.drop (offset + 1 + size) = rest.drop size := by
          rw [← List.drop_drop, behind]
        rw [if_neg short, field]
        cases meaning (fieldValue (rest.take size)) with
        | val val =>
            refine Or.inl ⟨rfl, ?_, by rw [later]⟩
            change offset + 1 + size ≤ memory.bytes.length
            omega
        | content len =>
            simp only
            have remaining : (rest.drop size).length = rest.length - size := by simp
            by_cases cut : (rest.drop size).length < len
            · rw [if_pos cut]
              exact Or.inr ⟨rfl, rfl, by omega⟩
            · have content : memory.slice (offset + 1 + size) len = (rest.drop size).take len := by
                rw [slice_eq (by omega), later]
              rw [if_neg cut, content]
              refine Or.inl ⟨rfl, by omega, ?_⟩
              rw [← later, List.drop_drop]

end Memory

theorem parse_takes (floats : Floats) (memory : Memory) (offset : Nat)
    (found : (parse floats memory offset).1 ≠ .ERR) :
    memory.bytes.length - (parse floats memory offset).2 < memory.bytes.length - offset := by
  rw [parse] at found ⊢
  by_cases ended : offset ≥ memory.bytes.length
  · rw [if_pos ended] at found
    exact absurd rfl found
  · rw [if_neg ended]
    rcases header floats (memory.byteAt offset) with ⟨size, meaning⟩
    simp only
    cases meaning (fieldValue (memory.slice (offset + 1) size)) <;> simp only <;> omega

theorem decodeString_finishes (floats : Floats) (memory : Memory) :
    decodeString floats memory ≠ .unfinished :=
  ((decode_finishes (parse_takes floats memory) _).1 0 0 (by omega)).ne_unfinished

theorem decodeString_ne_overrun (floats : Floats) (memory : Memory) (ps : Nat) :
    decodeString floats memory ≠ .overrun ps :=
  (decode_ne_overrun _).1 0 0 ps

/-- What lies behind the end is not reached as long as parsing goes on behind it. -/
theorem parse_behind (floats : Floats) (memory : Memory) (offset : Nat)
    (behind : memory.bytes.length < offset) :
    memory.bytes.length < (parse floats memory offset).2 := by
  rw [parse, if_pos behind.le]
  exact behind

/-- The decoder and the one that looks before it reads end in the same way, or a
token is cut off and the decoder leaves the string. -/
theorem decodeStringOn_follows (room : Nat → Bool) (floats : Floats) (memory : Memory) :
    Follows (At memory) (· = none) (memory.bytes.length < ·)
      (decodeWithinOn room floats memory.bytes) (decodeStringOn room floats memory) :=
  (decode_simulates (fun _ _ isAt => parse_step floats isAt)
    (fun offset => parse_behind floats memory offset) _).1 0 (some memory.bytes) 0
    ⟨Nat.zero_le _, rfl⟩

/-- On a stack that never ends the one that looks can only stop with the error. -/
theorem decodeString_follows (floats : Floats) (memory : Memory) :
    Agree (At memory) (decodeWithin floats memory.bytes) (decodeString floats memory) ∨
      CutOff floats memory.bytes ∧
        (decodeString floats memory).Ends (memory.bytes.length < ·) := by
  rcases decodeStringOn_follows (fun _ => true) floats memory with
    agree | ⟨⟨_, stops, rfl⟩, isGone⟩
  · exact Or.inl agree
  · refine Or.inr ⟨stops.resolve_right ?_, isGone⟩
    exact (decode_ne_overrun _).1 0 (some memory.bytes) none

/-- The decoder stays inside the string exactly when no token is cut off. -/
theorem inside_iff (floats : Floats) (memory : Memory) :
    (decodeString floats memory).Ends (· ≤ memory.bytes.length) ↔
      ¬ CutOff floats memory.bytes := by
  have finishes := decodeString_finishes floats memory
  rcases decodeString_follows floats memory with agree | ⟨cut, isGone⟩
  · refine iff_of_true ?_ ?_
    · cases within : decodeWithin floats memory.bytes <;>
        cases decoded : decodeString floats memory <;>
        simp_all [Agree, Ends, At]
    · intro cut
      rw [CutOff] at cut
      rw [cut] at agree
      cases decoded : decodeString floats memory <;> simp_all [Agree, At]
  · refine iff_of_false ?_ (not_not_intro cut)
    cases decoded : decodeString floats memory with
    | returned value offset =>
        rw [decoded] at isGone
        exact not_le.mpr isGone
    | raised error offset =>
        rw [decoded] at isGone
        exact not_le.mpr isGone
    | overrun offset => exact absurd decoded (decodeString_ne_overrun floats memory offset)
    | unfinished => exact absurd decoded finishes

end Msgpack

end LuaServer
