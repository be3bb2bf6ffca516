import LuaServer.LittleEndianBytes
import LuaServer.LuaValues

/-!
# Decoding MessagePack

`Unpack::parse` takes one token at `ps_` and only asks whether `ps_` has reached
`pe_` before its type byte, so it may read what lies in memory behind the string.
`Decode::decode` calls itself for the elements of arrays and maps.  The decoder
is given for any way to parse a token, because its runs are compared with those
over a parser that knows where its input ends.
-/

namespace LuaServer

namespace Msgpack

open MachineIntegers Lua

/-- The conversions between the bits of a `double` and those of a `float`. -/
structure Floats where
  narrow : Nat → Nat
  widen : Nat → Nat
  narrow_lt : ∀ bits, narrow bits < 2 ^ 32

/-- `endian_change` for the bytes of a variable. -/
def endianChange (bytes : ByteString) : ByteString :=
  bytes.reverse

/-- The tags of `Unpack::Val` with their data. -/
inductive Val where
  | NIL
  | BOOL (b : Bool)
  | INT (i : Int)
  | DOU (bits : Nat)
  | STR (s : ByteString)
  | ARR (len : Nat)
  | MAP (len : Nat)
  | ERR

/-- What a type byte with its field stands for: a value, or a string of that many
bytes behind it. -/
inductive Header where
  | val (val : Val)
  | content (len : Nat)

/-- The cases of `Unpack::parse`: the size of the field `parselen` takes behind the
type byte, and what a value of the field stands for. -/
def header (floats : Floats) (m : Nat) : Nat × (Nat → Header) :=
  if m ≤ 0x7f then (0, fun _ => .val (.INT m))
  else if 0xe0 ≤ m then (0, fun _ => .val (.INT (-32 + m - 0xe0)))
  else if 0xa0 ≤ m ∧ m ≤ 0xbf then (0, fun _ => .content (m - 0xa0))
  else if 0x80 ≤ m ∧ m ≤ 0x8f then (0, fun _ => .val (.MAP (m - 0x80)))
  else if 0x90 ≤ m ∧ m ≤ 0x9f then (0, fun _ => .val (.ARR (m - 0x90)))
  else
    match m with
    | 0xc0 => (0, fun _ => .val .NIL)
    | 0xc2 => (0, fun _ => .val (.BOOL false))
    | 0xc3 => (0, fun _ => .val (.BOOL true))
    | 0xd9 | 0xc4 => (1, .content)
    | 0xda | 0xc5 => (2, .content)
    | 0xdb | 0xc6 => (4, .content)
    | 0xca => (4, fun f => .val (.DOU (floats.widen f)))
    | 0xcb => (8, fun d => .val (.DOU d))
    | 0xcc => (1, fun v => .val (.INT v))
    | 0xcd => (2, fun v => .val (.INT v))
    | 0xce => (4, fun v => .val (.INT v))
    | 0xcf => (8, fun v => .val (.INT (toInt64 v)))
    | 0xd0 => (1, fun v => .val (.INT (toInt8 v)))
    | 0xd1 => (2, fun v => .val (.INT (toInt16 v)))
    | 0xd2 => (4, fun v => .val (.INT (toInt32 v)))
    | 0xd3 => (8, fun v => .val (.INT (toInt64 v)))
    | 0xdc => (2, fun len => .val (.ARR len))
    | 0xdd => (4, fun len => .val (.ARR len))
    | 0xde => (2, fun len => .val (.MAP len))
    | 0xdf => (4, fun len => .val (.MAP len))
    | _ => (0, fun _ => .val .ERR)

/-- The memory from the start of a string on. -/
structure Memory where
  bytes : ByteString
  behind : Nat → Byte

namespace Memory

def byteAt (memory : Memory) (offset : Nat) : Byte :=
  memory.bytes[offset]?.getD (memory.behind offset)

def slice (memory : Memory) (offset count : Nat) : ByteString :=
  (List.range count).map fun index => memory.byteAt (offset + index)

end Memory

/-- `Unpack::parselen` for a field, as an unsigned number. -/
def fieldValue (bytes : ByteString) : Nat :=
  LittleEndian.toNat (endianChange bytes)

/-- `Unpack::parse` with `ps_` as an offset into the string, which ends at `pe_`. -/
def parse (floats : Floats) (memory : Memory) (ps : Nat) : Val × Nat :=
  if ps ≥ memory.bytes.length then (.ERR, ps)
  else
    let (size, meaning) := header floats (memory.byteAt ps)
    match meaning (fieldValue (memory.slice (ps + 1) size)) with
    | .val val => (val, ps + 1 + size)
    | .content len => (.STR (memory.slice (ps + 1 + size) len), ps + 1 + size + len)

/-- The errors a call may raise: that of `Decode::decode`, and those of
`lua_settable`. -/
inductive Error where
  | unpack
  | indexNil
  | indexNaN
  deriving DecidableEq, Repr

/-- What a call of the decoder does, and where it leaves the parser.  A call overruns
when it pushes a value for which the Lua stack has no slot. -/
inductive Decoded (State : Type) where
  | returned (value : Pushed) (state : State)
  | raised (error : Error) (state : State)
  | overrun (state : State)
  | unfinished

namespace Decoded

/-- Go on with the value of a call that returned. -/
def andThen {State : Type} (decoded : Decoded State)
    (next : Pushed → State → Decoded State) : Decoded State :=
  match decoded with
  | .returned value state => next value state
  | .raised error state => .raised error state
  | .overrun state => .overrun state
  | .unfinished => .unfinished

end Decoded

/-- The error of `lua_settable` for a key. -/
def keyError : Pushed → Option Error
  | .nil => some .indexNil
  | .number bits => if isNaN bits then some .indexNaN else none
  | _ => none

section Decoder

variable {State : Type} (room : Nat → Bool) (parse : State → Val × State)

/-- Go on behind a push, which needs a slot at the height of the stack. -/
def push (height : Nat) (state : State) (decoded : Decoded State) : Decoded State :=
  if room height then decoded else .overrun state

mutual

/-- `Decode::decode` with so many values on the Lua stack, as far as the fuel goes.
Nothing asks for more slots than there are. -/
def decode : Nat → Nat → State → Decoded State
  | 0, _, _ => .unfinished
  | fuel + 1, height, state =>
      match parse state with
      | (.NIL, state) => push room height state (.returned .nil state)
      | (.BOOL b, state) => push room height state (.returned (.boolean b) state)
      | (.INT i, state) => push room height state (.returned (.integer i) state)
      | (.DOU bits, state) => push room height state (.returned (.number bits) state)
      | (.STR s, state) => push room height state (.returned (.string s) state)
      | (.ARR len, state) =>
          push room height state (decodeArray fuel (height + 1) len [] state)
      | (.MAP len, state) =>
          push room height state (decodeMap fuel (height + 1) len [] state)
      | (.ERR, state) =>
          -- `luaL_error` pushes the place of the call and the message behind it.
          push room height state (push room (height + 1) state (.raised .unpack state))
termination_by structural fuel => fuel

/-- The loop of the case `ARR`, where `lua_rawseti` takes the element. -/
def decodeArray : Nat → Nat → Nat → List (Pushed × Pushed) → State → Decoded State
  | 0, _, _, _, _ => .unfinished
  | _ + 1, _, 0, assigned, state => .returned (.table assigned) state
  | fuel + 1, height, len + 1, assigned, state =>
      (decode fuel height state).andThen fun value state =>
        decodeArray fuel height len
          (assigned ++ [(.integer (assigned.length + 1), value)]) state
termination_by structural fuel => fuel

/-- The loop of the case `MAP`, where `lua_settable` takes the key and the value. -/
def decodeMap : Nat → Nat → Nat → List (Pushed × Pushed) → State → Decoded State
  | 0, _, _, _, _ => .unfinished
  | _ + 1, _, 0, assigned, state => .returned (.table assigned) state
  | fuel + 1, height, len + 1, assigned, state =>
      (decode fuel height state).andThen fun key state =>
        (decode fuel (height + 1) state).andThen fun value state =>
          match keyError key with
          | some error => .raised error state
          | none => decodeMap fuel height len (assigned ++ [(key, value)]) state
termination_by structural fuel => fuel

end

end Decoder

/-- `lmsgpack.decode` on a Lua stack with room at some heights above its argument.
Every call of `decode` takes a byte or raises an error, so this much fuel is enough. -/
def decodeStringOn (room : Nat → Bool) (floats : Floats) (memory : Memory) : Decoded Nat :=
  decode room (parse floats memory) (2 * memory.bytes.length + 1) 0 0

/-- `lmsgpack.decode` on a Lua stack that never ends. -/
def decodeString (floats : Floats) (memory : Memory) : Decoded Nat :=
  decodeStringOn (fun _ => true) floats memory

namespace Decoded

/-- The state in which a run ends has the property. -/
def Ends {State : Type} (property : State → Prop) : Decoded State → Prop
  | .returned _ state => property state
  | .raised _ state => property state
  | .overrun state => property state
  | .unfinished => True

/-- The run comes to an end, and returns only in states with the property. -/
def Finishes {State : Type} (property : State → Prop) : Decoded State → Prop
  | .returned _ state => property state
  | .raised _ _ => True
  | .overrun _ => True
  | .unfinished => False

/-- Two runs end in the same way, in related states. -/
def Agree {First Second : Type} (related : First → Second → Prop) :
    Decoded First → Decoded Second → Prop
  | .returned value state, .returned other state' => value = other ∧ related state state'
  | .raised error state, .raised other state' => error = other ∧ related state state'
  | .overrun state, .overrun state' => related state state'
  | .unfinished, .unfinished => True
  | _, _ => False

/-- A run has stopped at an error of a token, in the error or while raising it. -/
def Stops {State : Type} (decoded : Decoded State) (state : State) : Prop :=
  decoded = .raised .unpack state ∨ decoded = .overrun state

/-- Two runs agree, or the first one has stopped with the error of a token in a
state that left, and the second one ends in a state that is gone. -/
def Follows {First Second : Type} (related : First → Second → Prop) (left : First → Prop)
    (gone : Second → Prop) (first : Decoded First) (second : Decoded Second) : Prop :=
  Agree related first second ∨
    (∃ state, first.Stops state ∧ left state) ∧ second.Ends gone

section Rules

variable {First Second : Type} {related : First → Second → Prop} {left : First → Prop}
  {gone : Second → Prop} {first : Decoded First} {second : Decoded Second}
  {next : Pushed → First → Decoded First} {other : Pushed → Second → Decoded Second}
  {room : Nat → Bool} {height : Nat} {state : First} {state' : Second}

theorem Ends.andThen (ends : second.Ends gone)
    (goesOn : ∀ value state, gone state → (other value state).Ends gone) :
    (second.andThen other).Ends gone := by
  cases second with
  | returned value state => exact goesOn value state ends
  | raised error state => exact ends
  | overrun state => exact ends
  | unfinished => trivial

theorem Ends.push (here : gone state') (ends : second.Ends gone) :
    (push room height state' second).Ends gone := by
  rw [Msgpack.push]
  split
  · exact ends
  · exact here

theorem Finishes.ne_unfinished {property : First → Prop} (finishes : first.Finishes property) :
    first ≠ .unfinished := by
  rintro rfl
  exact finishes

theorem Finishes.imp {property weaker : First → Prop} (finishes : first.Finishes property)
    (implies : ∀ state, property state → weaker state) : first.Finishes weaker := by
  cases first with
  | returned value state => exact implies state finishes
  | raised error state => trivial
  | overrun state => trivial
  | unfinished => exact finishes

theorem Finishes.andThen {property weaker : First → Prop} (finishes : first.Finishes property)
    (goesOn : ∀ value state, property state → (next value state).Finishes weaker) :
    (first.andThen next).Finishes weaker := by
  cases first with
  | returned value state => exact goesOn value state finishes
  | raised error state => trivial
  | overrun state => trivial
  | unfinished => exact finishes

theorem Finishes.push {property : First → Prop} (finishes : first.Finishes property) :
    (push room height state first).Finishes property := by
  rw [Msgpack.push]
  split
  · exact finishes
  · trivial

theorem ne_unfinished_of_andThen (finishes : first.andThen next ≠ .unfinished) :
    first ≠ .unfinished := by
  rintro rfl
  exact finishes rfl

theorem andThen_congr {later : Pushed → First → Decoded First}
    (finishes : first.andThen next ≠ .unfinished)
    (same : ∀ value state, next value state ≠ .unfinished →
      later value state = next value state) :
    first.andThen later = first.andThen next := by
  cases first with
  | returned value state => exact same value state finishes
  | raised error state => rfl
  | overrun state => rfl
  | unfinished => rfl

theorem push_congr {later : Decoded First} (finishes : push room height state first ≠ .unfinished)
    (same : first ≠ .unfinished → later = first) :
    push room height state later = push room height state first := by
  rw [Msgpack.push] at finishes ⊢
  rw [Msgpack.push]
  split_ifs with free
  · exact same (by rwa [if_pos free] at finishes)
  · rfl

theorem Follows.andThen (follows : Follows related left gone first second)
    (goesOn : ∀ value state state', related state state' →
      Follows related left gone (next value state) (other value state'))
    (staysGone : ∀ value state, gone state → (other value state).Ends gone) :
    Follows related left gone (first.andThen next) (second.andThen other) := by
  rcases follows with agree | ⟨⟨state, stops, isLeft⟩, isGone⟩
  · cases first <;> cases second <;> simp only [Agree] at agree
    · obtain ⟨rfl, isRelated⟩ := agree
      exact goesOn _ _ _ isRelated
    · exact Or.inl agree
    · exact Or.inl agree
    · exact Or.inl trivial
  · refine Or.inr ⟨⟨state, ?_, isLeft⟩, isGone.andThen staysGone⟩
    rcases stops with rfl | rfl
    · exact Or.inl rfl
    · exact Or.inr rfl

theorem Follows.push (here : related state state')
    (follows : Follows related left gone first second) :
    Follows related left gone (push room height state first) (push room height state' second) := by
  rw [Msgpack.push, Msgpack.push]
  split
  · exact follows
  · exact Or.inl here

end Rules

end Decoded

section Runs

variable {State : Type} {room : Nat → Bool} {parse : State → Val × State}

/-- A property that parsing keeps holds at the end of a run. -/
theorem ends_of_closed {property : State → Prop}
    (closed : ∀ state, property state → property (parse state).2) (fuel : Nat) :
    (∀ height state, property state → (decode room parse fuel height state).Ends property) ∧
      (∀ height len assigned state, property state →
        (decodeArray room parse fuel height len assigned state).Ends property) ∧
      ∀ height len assigned state, property state →
        (decodeMap room parse fuel height len assigned state).Ends property := by
  induction fuel with
  | zero => simp [decode, decodeArray, decodeMap, Decoded.Ends]
  | succ fuel ih =>
      obtain ⟨values, arrays, maps⟩ := ih
      refine ⟨?_, ?_, ?_⟩
      · intro height state holds
        have next := closed state holds
        rw [decode]
        rcases parsed : parse state with ⟨val, state'⟩
        rw [parsed] at next
        cases val with
        | ARR len => exact .push next (arrays _ len [] state' next)
        | MAP len => exact .push next (maps _ len [] state' next)
        | ERR => exact .push next (.push next next)
        | NIL | BOOL _ | INT _ | DOU _ | STR _ => exact .push next next
      · intro height len assigned state holds
        cases len with
        | zero => exact holds
        | succ len => exact (values height state holds).andThen fun value => arrays height len _
      · intro height len assigned state holds
        cases len with
        | zero => exact holds
        | succ len =>
            refine (values height state holds).andThen fun key state' first =>
              (values (height + 1) state' first).andThen fun value later second => ?_
            cases refused : keyError key with
            | none => exact maps height len _ later second
            | some error => exact second

/-- A run over a parser whose tokens take something ends within its fuel, and a
value takes something. -/
theorem decode_finishes {measure : State → Nat}
    (takes : ∀ state, (parse state).1 ≠ .ERR → measure (parse state).2 < measure state)
    (fuel : Nat) :
    (∀ height state, 2 * measure state < fuel →
        (decode room parse fuel height state).Finishes fun after =>
          measure after < measure state) ∧
      (∀ height len assigned state, 2 * measure state + 1 < fuel →
        (decodeArray room parse fuel height len assigned state).Finishes fun after =>
          measure after ≤ measure state) ∧
      ∀ height len assigned state, 2 * measure state + 1 < fuel →
        (decodeMap room parse fuel height len assigned state).Finishes fun after =>
          measure after ≤ measure state := by
  induction fuel with
  | zero => simp
  | succ fuel ih =>
      obtain ⟨values, arrays, maps⟩ := ih
      refine ⟨?_, ?_, ?_⟩
      · intro height state enough
        have less := takes state
        rw [decode]
        rcases parsed : parse state with ⟨val, state'⟩
        rw [parsed] at less
        cases val with
        | ARR len =>
            have taken : measure state' < measure state := less (by simp)
            exact .push ((arrays _ len [] state' (by omega)).imp fun after upTo => by omega)
        | MAP len =>
            have taken : measure state' < measure state := less (by simp)
            exact .push ((maps _ len [] state' (by omega)).imp fun after upTo => by omega)
        | ERR => exact .push (.push trivial)
        | NIL | BOOL _ | INT _ | DOU _ | STR _ => exact .push (less (by simp))
      · intro height len assigned state enough
        cases len with
        | zero => exact le_rfl
        | succ len =>
            rw [decodeArray]
            refine (values height state (by omega)).andThen fun value state' taken => ?_
            exact (arrays height len _ state' (by omega)).imp fun after upTo => by omega
      · intro height len assigned state enough
        cases len with
        | zero => exact le_rfl
        | succ len =>
            rw [decodeMap]
            refine (values height state (by omega)).andThen fun key state' taken => ?_
            refine (values (height + 1) state' (by omega)).andThen fun value later takenToo => ?_
            cases refused : keyError key with
            | none => exact (maps height len _ later (by omega)).imp fun after upTo => by omega
            | some error => trivial

/-- More fuel never changes how a run ends. -/
theorem decode_succ (fuel : Nat) :
    (∀ height state, decode room parse fuel height state ≠ .unfinished →
        decode room parse (fuel + 1) height state = decode room parse fuel height state) ∧
      (∀ height len assigned state,
        decodeArray room parse fuel height len assigned state ≠ .unfinished →
          decodeArray room parse (fuel + 1) height len assigned state =
            decodeArray room parse fuel height len assigned state) ∧
      ∀ height len assigned state,
        decodeMap room parse fuel height len assigned state ≠ .unfinished →
          decodeMap room parse (fuel + 1) height len assigned state =
            decodeMap room parse fuel height len assigned state := by
  induction fuel with
  | zero => simp [decode, decodeArray, decodeMap]
  | succ fuel ih =>
      obtain ⟨values, arrays, maps⟩ := ih
      refine ⟨?_, ?_, ?_⟩
      · intro height state finishes
        rw [decode] at finishes ⊢
        rw [decode]
        rcases parsed : parse state with ⟨val, state'⟩
        rw [parsed] at finishes
        cases val with
        | ARR len => exact Decoded.push_congr finishes (arrays _ len [] state')
        | MAP len => exact Decoded.push_congr finishes (maps _ len [] state')
        | NIL | BOOL _ | INT _ | DOU _ | STR _ | ERR => rfl
      · intro height len assigned state finishes
        cases len with
        | zero => rfl
        | succ len =>
            rw [decodeArray] at finishes ⊢
            rw [decodeArray]
            rw [values height state (Decoded.ne_unfinished_of_andThen finishes)]
            exact Decoded.andThen_congr finishes fun value => arrays height len _
      · intro height len assigned state finishes
        cases len with
        | zero => rfl
        | succ len =>
            rw [decodeMap] at finishes ⊢
            rw [decodeMap]
            rw [values height state (Decoded.ne_unfinished_of_andThen finishes)]
            refine Decoded.andThen_congr finishes fun key state' rest => ?_
            rw [values (height + 1) state' (Decoded.ne_unfinished_of_andThen rest)]
            refine Decoded.andThen_congr rest fun value later more => ?_
            cases refused : keyError key with
            | none => exact maps height len _ later (by simpa [refused] using more)
            | some error => rfl

theorem decode_mono {fuel more height : Nat} (upTo : fuel ≤ more) {state : State}
    (finishes : decode room parse fuel height state ≠ .unfinished) :
    decode room parse more height state = decode room parse fuel height state := by
  induction upTo with
  | refl => rfl
  | @step more _ ih => rw [(decode_succ more).1 height state (by rwa [ih]), ih]

/-- A stack that never ends is not overrun. -/
theorem decode_ne_overrun (fuel : Nat) :
    (∀ height state stopped, decode (fun _ => true) parse fuel height state ≠ .overrun stopped) ∧
      (∀ height len assigned state stopped,
        decodeArray (fun _ => true) parse fuel height len assigned state ≠ .overrun stopped) ∧
      ∀ height len assigned state stopped,
        decodeMap (fun _ => true) parse fuel height len assigned state ≠ .overrun stopped := by
  have rule : ∀ {first : Decoded State} {next : Pushed → State → Decoded State},
      (∀ stopped, first ≠ .overrun stopped) →
      (∀ value state stopped, next value state ≠ .overrun stopped) →
      ∀ stopped, first.andThen next ≠ .overrun stopped := by
    intro first next none goesOn stopped
    cases first with
    | returned value state => exact goesOn value state stopped
    | overrun state => exact absurd rfl (none state)
    | raised | unfinished => simp [Decoded.andThen]
  induction fuel with
  | zero => simp [decode, decodeArray, decodeMap]
  | succ fuel ih =>
      obtain ⟨values, arrays, maps⟩ := ih
      refine ⟨?_, ?_, ?_⟩
      · intro height state stopped
        rw [decode]
        rcases parse state with ⟨val, state'⟩
        cases val with
        | ARR len => exact arrays _ len [] state' stopped
        | MAP len => exact maps _ len [] state' stopped
        | NIL | BOOL _ | INT _ | DOU _ | STR _ | ERR => simp [push]
      · intro height len assigned state
        cases len with
        | zero => simp [decodeArray]
        | succ len => exact rule (values height state) fun value => arrays height len _
      · intro height len assigned state
        cases len with
        | zero => simp [decodeMap]
        | succ len =>
            refine rule (values height state) fun key state' => ?_
            refine rule (values (height + 1) state') fun value later stopped => ?_
            cases refused : keyError key with
            | none => exact maps height len _ later stopped
            | some error => simp

end Runs

section Simulation

variable {First Second : Type} {room : Nat → Bool} {parseFirst : First → Val × First}
  {parseSecond : Second → Val × Second} {related : First → Second → Prop}
  {left : First → Prop} {gone : Second → Prop}

open Decoded

/-- Runs over parsers that take the same tokens until the first one stops with an
error end in the same way, or part there. -/
theorem decode_simulates
    (steps : ∀ state other, related state other →
      (parseFirst state).1 = (parseSecond other).1 ∧
          related (parseFirst state).2 (parseSecond other).2 ∨
        (parseFirst state).1 = .ERR ∧ left (parseFirst state).2 ∧ gone (parseSecond other).2)
    (closed : ∀ other, gone other → gone (parseSecond other).2) (fuel : Nat) :
    (∀ height state other, related state other → Follows related left gone
        (decode room parseFirst fuel height state) (decode room parseSecond fuel height other)) ∧
      (∀ height len assigned state other, related state other → Follows related left gone
        (decodeArray room parseFirst fuel height len assigned state)
        (decodeArray room parseSecond fuel height len assigned other)) ∧
      ∀ height len assigned state other, related state other → Follows related left gone
        (decodeMap room parseFirst fuel height len assigned state)
        (decodeMap room parseSecond fuel height len assigned other) := by
  induction fuel with
  | zero => simp [decode, decodeArray, decodeMap, Follows, Agree]
  | succ fuel ih =>
      obtain ⟨values, arrays, maps⟩ := ih
      obtain ⟨goneValues, goneArrays, goneMaps⟩ := @ends_of_closed Second room _ _ closed fuel
      refine ⟨?_, ?_, ?_⟩
      · intro height state other isRelated
        rw [decode, decode]
        rcases parsed : parseFirst state with ⟨val, state'⟩
        rcases otherParsed : parseSecond other with ⟨otherVal, other'⟩
        have step := steps state other isRelated
        rw [parsed, otherParsed] at step
        rcases step with ⟨rfl, next⟩ | ⟨rfl, isLeft, isGone⟩
        · cases val with
          | ARR len => exact .push next (arrays _ len [] state' other' next)
          | MAP len => exact .push next (maps _ len [] state' other' next)
          | ERR => exact .push next (.push next (Or.inl ⟨rfl, next⟩))
          | NIL | BOOL _ | INT _ | DOU _ | STR _ => exact .push next (Or.inl ⟨rfl, next⟩)
        · refine Or.inr ⟨⟨state', ?_, isLeft⟩, ?_⟩
          · simp only [push, Stops]
            split_ifs <;> simp
          · cases otherVal with
            | ARR len => exact .push isGone (goneArrays _ len [] other' isGone)
            | MAP len => exact .push isGone (goneMaps _ len [] other' isGone)
            | ERR => exact .push isGone (.push isGone isGone)
            | NIL | BOOL _ | INT _ | DOU _ | STR _ => exact .push isGone isGone
      · intro height len assigned state other isRelated
        cases len with
        | zero => exact Or.inl ⟨rfl, isRelated⟩
        | succ len =>
            exact (values height state other isRelated).andThen
              (fun value => arrays height len _) (fun value => goneArrays height len _)
      · intro height len assigned state other isRelated
        cases len with
        | zero => exact Or.inl ⟨rfl, isRelated⟩
        | succ len =>
            apply (values height state other isRelated).andThen
            · intro key state' other' first
              apply (values (height + 1) state' other' first).andThen
              · intro value later otherLater second
                cases refused : keyError key with
                | none => exact maps height len _ later otherLater second
                | some error => exact Or.inl ⟨rfl, second⟩
              · intro value otherLater isGone
                cases refused : keyError key with
                | none => exact goneMaps height len _ otherLater isGone
                | some error => exact isGone
            · intro key other' isGone
              apply (goneValues (height + 1) other' isGone).andThen
              intro value otherLater stillGone
              cases refused : keyError key with
              | none => exact goneMaps height len _ otherLater stillGone
              | some error => exact stillGone

end Simulation

end Msgpack

end LuaServer
