import LuaServer.MsgpackReading
import LuaServer.RunConditions

/-!
# Streams of tokens

`Pack` turns calls into bytes and `Unpack::parse` takes them again, one token for each
call.  The length of a string is an `int` when it is copied: a string of `2 ^ 31` bytes or
more is copied as one of a negative length, and the sum in the test for room wraps around.
-/

namespace LuaServer

namespace Msgpack

open MachineIntegers RunConditions

/-- The calls of `Pack` that write a token of the stream. -/
inductive Call where
  | packNil
  | packBoolean (val : Bool)
  | packInteger (val : Int)
  | packString (p : ByteString)
  | packArrHead (len : Nat)
  | packMapHead (len : Nat)

namespace Call

/-- The arguments fit their types. -/
def Valid : Call → Prop
  | .packInteger val => -2 ^ 63 ≤ val ∧ val < 2 ^ 63
  | .packString p => p.length < 2 ^ 32
  | .packArrHead len => len < 2 ^ 32
  | .packMapHead len => len < 2 ^ 32
  | _ => True

/-- The token of a call. -/
def token : Call → Val
  | .packNil => .NIL
  | .packBoolean val => .BOOL val
  | .packInteger val => .INT val
  | .packString p => .STR p
  | .packArrHead len => .ARR len
  | .packMapHead len => .MAP len

/-- The complete encoding of a call. -/
def encoding : Call → ByteString
  | .packNil => [0xc0]
  | .packBoolean val => if val then [0xc3] else [0xc2]
  | .packInteger val => (integerWrites val).flatten
  | .packString p => (stringWrites p.length).flatten ++ p
  | .packArrHead len => (headWrites 0x90 0xdc 0xdd len).flatten
  | .packMapHead len => (headWrites 0x80 0xde 0xdf len).flatten

end Call

namespace Pack

def perform (pack : Pack) : Call → Except Failure Pack
  | .packNil => pack.packNil
  | .packBoolean val => pack.packBoolean val
  | .packInteger val => pack.packInteger val
  | .packString p => pack.packString p p.length
  | .packArrHead len => pack.packArrHead len
  | .packMapHead len => pack.packMapHead len

/-- Calls in turn on a buffer of the size, with `len_` at 0 and `over_` not set. -/
def run (size : Nat) (calls : List Call) : Except Failure Pack :=
  calls.foldlM perform ⟨size, [], false⟩

end Pack

/-- Calls of `Unpack::parse` in turn, with where the last one ends. -/
def parseAll (floats : Floats) (memory : Memory) : Nat → Nat → List Val × Nat
  | 0, ps => ([], ps)
  | count + 1, ps =>
      let (val, ps) := parse floats memory ps
      let (vals, ps) := parseAll floats memory count ps
      (val :: vals, ps)

/-- The complete encoding of a stream. -/
def streamOf (calls : List Call) : ByteString :=
  calls.flatMap Call.encoding

/-- What the two sides of a stream promise each other. -/
structure StreamExact (size : Nat) (calls : List Call) : Prop where
  /-- No call writes at or behind the end of the buffer. -/
  inside : ∀ before after, calls = before ++ after →
    ∃ pack, Pack.run size before = .ok pack ∧ pack.written.length ≤ size
  /-- A complete stream is parsed as its tokens. -/
  complete : ∀ pack, Pack.run size calls = .ok pack → pack.over_ = false →
    ∀ floats behind, parseAll floats ⟨pack.written, behind⟩ calls.length 0 =
      (calls.map Call.token, pack.written.length)
  /-- A stream that is not complete does not fit. -/
  overflow : ∀ pack, Pack.run size calls = .ok pack → pack.over_ = true →
    size ≤ (streamOf calls).length
  /-- A stream with a token that was skipped is not complete. -/
  skipped : ∀ before after early pack, calls = before ++ after →
    Pack.run size before = .ok early → early.over_ = true →
      Pack.run size calls = .ok pack → pack.over_ = true

/-- The bytes that a buffer takes before `over_` is set. -/
def limit (size : Nat) : Nat :=
  min size (2 ^ 31)

/-- A string of a negative length is only met where it leads below 0. -/
def LengthFits (size : Nat) (before : List Call) : Call → Prop
  | .packString p => 2 ^ 31 ≤ p.length → (streamOf before).length + 5 < limit size →
      (streamOf before).length + 5 + p.length < 2 ^ 32
  | _ => True

section Writing

/-- A buffer behind the calls with this encoding. -/
structure Holds (size : Nat) (bytes : ByteString) (pack : Pack) : Prop where
  size_eq : pack.size = size
  inside : pack.written.length ≤ size
  notOver : pack.over_ = false → pack.written = bytes ∧ (bytes = [] ∨ bytes.length < limit size)
  full : pack.over_ = true → limit size ≤ bytes.length

variable {size : Nat} {bytes more : ByteString} {pack : Pack}

/-- The test for room of a length that is not negative. -/
theorem room_iff {total : Int} (large : size < 2 ^ 63) (lower : 0 ≤ total)
    (upper : total < 2 ^ 32) : toSizeT (toInt32 total) ≥ size ↔ (limit size : Int) ≤ total := by
  simp only [limit, toSizeT, toUnsigned]
  by_cases small : total < 2 ^ 31
  · rw [toInt32_of_range (by omega) (by omega), Int.emod_eq_of_lt lower (by omega)]
    omega
  · rw [toInt32_of_large (by omega) upper]
    omega

theorem Holds.write_large (holds : Holds size bytes pack) (large : size < 2 ^ 63) {len : Nat}
    (lower : 2 ^ 31 ≤ len) (upper : len < 2 ^ 32) (p : ByteString) (notOver : pack.over_ = false)
    (room : bytes.length < limit size) :
    pack.write p (toInt32 len) =
      if bytes.length + len < 2 ^ 32 then .ok { pack with over_ := true } else .error .memory := by
  have isSize := holds.size_eq
  obtain ⟨isBytes, -⟩ := holds.notOver notOver
  have below : bytes.length < size ∧ bytes.length < 2 ^ 31 := by
    simp only [limit] at room
    omega
  have negative : toInt32 (len : Int) = len - 4294967296 :=
    toInt32_of_large (by omega) (by omega)
  rw [Pack.write, negative, if_neg (by simp [notOver]), isBytes]
  by_cases less : bytes.length + len < 2 ^ 32
  · rw [toInt32_of_range (by omega) (by omega), if_pos less, if_pos]
    rw [toSizeT, toUnsigned]
    omega
  · rw [toInt32_of_range (by omega) (by omega), if_neg less, if_neg, if_pos (by omega)]
    rw [toSizeT, toUnsigned]
    omega

theorem Holds.write (holds : Holds size bytes pack) (large : size < 2 ^ 63)
    (short : more.length < 2 ^ 31) :
    ∃ after, pack.write more more.length = .ok after ∧ Holds size (bytes ++ more) after := by
  cases isOver : pack.over_ with
  | true =>
      refine ⟨pack, by rw [Pack.write, if_pos isOver], holds.size_eq, holds.inside, ?_, ?_⟩
      · intro notOver
        exact absurd (isOver.symm.trans notOver) (by simp)
      · intro _
        rw [List.length_append]
        exact (holds.full isOver).trans (Nat.le_add_right _ _)
  | false =>
      obtain ⟨isBytes, fits⟩ := holds.notOver isOver
      have below : bytes.length < 2 ^ 31 := by
        rcases fits with rfl | room
        · simp
        · simp only [limit] at room
          omega
      have room := @room_iff size ((bytes.length : Int) + more.length) large (by omega) (by omega)
      rw [Pack.write, if_neg (by simp [isOver]), holds.size_eq, isBytes]
      by_cases full : (limit size : Int) ≤ bytes.length + more.length
      · rw [if_pos (room.mpr full)]
        refine ⟨_, rfl, rfl, isBytes ▸ holds.inside, fun notOver => absurd notOver (by simp), ?_⟩
        intro _
        rw [List.length_append]
        omega
      · rw [if_neg (fun isFull => full (room.mp isFull)), if_neg (by omega), Int.toNat_natCast,
          List.take_length]
        have fitting : (bytes ++ more).length < limit size := by
          rw [List.length_append]
          omega
        refine ⟨_, rfl, rfl, ?_, fun _ => ⟨rfl, Or.inr fitting⟩, fun isSet => ?_⟩
        · change (bytes ++ more).length ≤ size
          simp only [limit] at fitting
          omega
        · exact absurd (isOver.symm.trans isSet) (by simp)

theorem Holds.writeAll (holds : Holds size bytes pack) (large : size < 2 ^ 63)
    {writes : List ByteString} (short : ∀ more ∈ writes, more.length ≤ 8) :
    ∃ after, pack.writeAll writes = .ok after ∧ Holds size (bytes ++ writes.flatten) after := by
  induction writes generalizing pack bytes with
  | nil => exact ⟨pack, rfl, by rwa [List.flatten_nil, List.append_nil]⟩
  | cons more writes ih =>
      obtain ⟨first, others⟩ := List.forall_mem_cons.mp short
      obtain ⟨middle, isMiddle, holdsMiddle⟩ :=
        holds.write large (show more.length < 2 ^ 31 by omega)
      obtain ⟨after, isAfter, holdsAfter⟩ := ih holdsMiddle others
      refine ⟨after, ?_, ?_⟩
      · rw [Pack.writeAll, isMiddle]
        exact isAfter
      · rwa [List.flatten_cons, ← List.append_assoc]

theorem length_stringWrites_large {len : Nat} (lower : 2 ^ 31 ≤ len) :
    (stringWrites len).flatten.length = 5 := by
  rw [stringWrites, if_neg (by omega), if_neg (by omega), if_neg (by omega)]
  simp

end Writing

section Calls

variable {size : Nat} {before calls : List Call} {call : Call} {pack : Pack}

theorem streamOf_concat (before : List Call) (call : Call) :
    streamOf (before ++ [call]) = streamOf before ++ call.encoding := by
  simp [streamOf]

theorem length_encoding_pos (call : Call) : 0 < call.encoding.length := by
  cases call with
  | packNil => simp [Call.encoding]
  | packBoolean val => cases val <;> simp [Call.encoding]
  | packInteger val =>
      simp only [Call.encoding, integerWrites]
      split_ifs <;> simp
  | packString p =>
      simp only [Call.encoding, stringWrites]
      split_ifs <;> simp
  | packArrHead len =>
      simp only [Call.encoding, headWrites]
      split_ifs <;> simp
  | packMapHead len =>
      simp only [Call.encoding, headWrites]
      split_ifs <;> simp

theorem eq_nil_of_streamOf (empty : streamOf calls = []) : calls = [] := by
  cases calls with
  | nil => rfl
  | cons call calls =>
      rw [streamOf, List.flatMap_cons] at empty
      have length := length_encoding_pos call
      rw [(List.append_eq_nil_iff.mp empty).1] at length
      exact absurd length (lt_irrefl 0)

/-- What a call does behind the calls that hold: it fails when it copies a string of a
negative length to where it may be, and holds otherwise. -/
def Does (size : Nat) (before : List Call) (call : Call) (result : Except Failure Pack) : Prop :=
  LengthFits size before call ∧
      (∃ after, result = .ok after ∧ Holds size (streamOf (before ++ [call])) after) ∨
    ¬ LengthFits size before call ∧ result = .error .memory

theorem Holds.packString_large (holds : Holds size (streamOf before) pack)
    (large : size < 2 ^ 63) {p : ByteString} (lower : 2 ^ 31 ≤ p.length)
    (upper : p.length < 2 ^ 32) :
    Does size before (.packString p) (pack.packString p p.length) := by
  obtain ⟨middle, isMiddle, holdsMiddle⟩ :=
    holds.writeAll large fun more member => length_stringWrites member
  have length := length_stringWrites_large lower
  have unfolded : pack.packString p p.length = middle.write p (toInt32 p.length) := by
    rw [Pack.packString, isMiddle]
    rfl
  have head : (streamOf before ++ (stringWrites p.length).flatten).length =
      (streamOf before).length + 5 := by
    rw [List.length_append, length]
  have whole : (streamOf before ++ Call.encoding (.packString p)).length =
      (streamOf before).length + 5 + p.length := by
    rw [Call.encoding, ← List.append_assoc, List.length_append, head]
  have small : limit size ≤ p.length := (min_le_right _ _).trans lower
  rw [Does, unfolded, streamOf_concat, LengthFits]
  cases isOver : middle.over_ with
  | true =>
      have full := holdsMiddle.full isOver
      refine Or.inl ⟨fun _ room => by omega, middle, by rw [Pack.write, if_pos isOver],
        holdsMiddle.size_eq, holdsMiddle.inside, ?_, ?_⟩
      · intro notOver
        exact absurd (isOver.symm.trans notOver) (by simp)
      · intro _
        omega
  | false =>
      have room : (streamOf before ++ (stringWrites p.length).flatten).length < limit size := by
        refine (holdsMiddle.notOver isOver).2.resolve_left fun empty => ?_
        rw [empty] at head
        simp at head
      rw [holdsMiddle.write_large large lower upper p isOver room, head]
      split
      next less =>
        refine Or.inl ⟨fun _ _ => less, _, rfl, holdsMiddle.size_eq, holdsMiddle.inside,
          fun notOver => absurd notOver (by simp), ?_⟩
        intro _
        omega
      next more => exact Or.inr ⟨fun fits => more (fits lower (by omega)), rfl⟩

theorem Holds.perform (holds : Holds size (streamOf before) pack) (large : size < 2 ^ 63)
    (valid : call.Valid) : Does size before call (pack.perform call) := by
  have written : ∀ result : Except Failure Pack, LengthFits size before call →
      (∃ after, result = .ok after ∧ Holds size (streamOf before ++ call.encoding) after) →
        Does size before call result := by
    rintro result fits held
    rw [← streamOf_concat] at held
    exact Or.inl ⟨fits, held⟩
  cases call with
  | packNil => exact written _ trivial (holds.writeAll large (by simp))
  | packBoolean val =>
      refine written _ trivial ?_
      rw [Call.encoding, ← List.append_nil (if val then _ else _)]
      exact holds.writeAll large (by cases val <;> simp)
  | packInteger val =>
      exact written _ trivial (holds.writeAll large fun more member => length_integerWrites member)
  | packArrHead len =>
      exact written _ trivial (holds.writeAll large fun more member => length_headWrites member)
  | packMapHead len =>
      exact written _ trivial (holds.writeAll large fun more member => length_headWrites member)
  | packString p =>
      by_cases long : 2 ^ 31 ≤ p.length
      · exact holds.packString_large large long valid
      · obtain ⟨middle, isMiddle, holdsMiddle⟩ :=
          holds.writeAll large fun more member => length_stringWrites member
        obtain ⟨after, isAfter, holdsAfter⟩ :=
          holdsMiddle.write large (show p.length < 2 ^ 31 by omega)
        refine written _ (fun lower => absurd lower long) ⟨after, ?_, ?_⟩
        · rw [Pack.perform, Pack.packString, isMiddle,
            toInt32_of_range (by omega) (by omega)]
          exact isAfter
        · rwa [Call.encoding, ← List.append_assoc]

end Calls

section Runs

variable {size : Nat} {calls : List Call}

theorem run_concat (size : Nat) (before : List Call) (call : Call) :
    Pack.run size (before ++ [call]) =
      (Pack.run size before).bind fun pack => pack.perform call := by
  rw [Pack.run, List.foldlM_append]
  cases isRun : Pack.run size before with
  | error failure =>
      rw [Pack.run] at isRun
      rw [isRun]
      rfl
  | ok pack =>
      rw [Pack.run] at isRun
      rw [isRun]
      simp only [List.foldlM_cons, List.foldlM_nil]
      change (pack.perform call >>= pure) = _
      rw [bind_pure]
      rfl

/-- A run ends with what holds for its encoding. -/
def Runs (size : Nat) (calls : List Call) : Prop :=
  ∃ pack, Pack.run size calls = .ok pack ∧ Holds size (streamOf calls) pack

theorem runs_nil (size : Nat) : Runs size [] :=
  ⟨⟨size, [], false⟩, rfl, rfl, Nat.zero_le size, fun _ => ⟨rfl, Or.inl rfl⟩,
    fun absurdity => absurd absurdity (by simp)⟩

/-- A run goes on exactly when the next call fits. -/
theorem runs_concat_iff {before : List Call} {call : Call} (runs : Runs size before)
    (large : size < 2 ^ 63) (valid : call.Valid) :
    Runs size (before ++ [call]) ↔ LengthFits size before call := by
  obtain ⟨pack, isRun, holds⟩ := runs
  rw [Runs, run_concat, isRun]
  rcases holds.perform large valid with ⟨fits, held⟩ | ⟨unfit, fails⟩
  · exact iff_of_true held fits
  · refine iff_of_false ?_ unfit
    rintro ⟨after, isOk, -⟩
    exact absurd (fails.symm.trans isOk) (by simp)

theorem runs_concat_of_ok {before : List Call} {call : Call} {after : Pack}
    (runs : Runs size before) (large : size < 2 ^ 63) (valid : call.Valid)
    (isRun : Pack.run size (before ++ [call]) = .ok after) : Runs size (before ++ [call]) := by
  rw [runs_concat_iff runs large valid]
  obtain ⟨pack, isBefore, holds⟩ := runs
  rw [run_concat, isBefore] at isRun
  rcases holds.perform large valid with ⟨fits, -⟩ | ⟨-, fails⟩
  · exact fits
  · exact absurd (fails.symm.trans isRun) (by simp)

/-- A run without a copy over the end of the memory holds its encoding. -/
theorem runs_of_ok (large : size < 2 ^ 63) (valid : ∀ call ∈ calls, call.Valid) {pack : Pack}
    (isRun : Pack.run size calls = .ok pack) : Runs size calls := by
  induction calls using List.reverseRecOn generalizing pack with
  | nil => exact runs_nil size
  | append_singleton before call ih =>
      have isWhole := isRun
      rw [run_concat] at isRun
      cases isBefore : Pack.run size before with
      | error failure =>
          rw [isBefore] at isRun
          exact absurd isRun (by simp [Except.bind])
      | ok middle =>
          have runs := ih (fun other member => valid other (List.mem_append_left _ member)) isBefore
          obtain ⟨held, isHeld, holds⟩ := runs
          cases isBefore.symm.trans isHeld
          exact runs_concat_of_ok ⟨middle, isBefore, holds⟩ large (valid call (by simp)) isWhole

end Runs

section Parsing

variable {floats : Floats} {call : Call} {calls : List Call}

theorem parseWithin_encoding (valid : call.Valid) (rest : ByteString) :
    parseWithin floats (some (call.encoding ++ rest)) = (call.token, some rest) := by
  cases call with
  | packNil => exact @parseWithin_val floats 0xc0 0 _ [] .NIL rfl rfl rfl rest
  | packBoolean val =>
      cases val with
      | true => exact @parseWithin_val floats 0xc3 0 _ [] (.BOOL true) rfl rfl rfl rest
      | false => exact @parseWithin_val floats 0xc2 0 _ [] (.BOOL false) rfl rfl rfl rest
  | packInteger val => exact parse_integer valid.1 valid.2 rest
  | packString p =>
      rw [Call.encoding, List.append_assoc]
      exact parse_string valid rest
  | packArrHead len => exact parse_array valid rest
  | packMapHead len => exact parse_map valid rest

theorem token_ne_ERR (call : Call) : call.token ≠ .ERR := by
  cases call <;> simp [Call.token]

theorem parse_encoding (valid : call.Valid) (front rest : ByteString) (behind : Nat → Byte) :
    parse floats ⟨front ++ (call.encoding ++ rest), behind⟩ front.length =
      (call.token, (front ++ call.encoding).length) := by
  have isAt : At ⟨front ++ (call.encoding ++ rest), behind⟩ (some (call.encoding ++ rest))
      front.length := by
    refine ⟨by simp, ?_⟩
    rw [List.drop_left']
    rfl
  rcases parse_step floats isAt with ⟨sameVal, upTo, left⟩ | ⟨isErr, -, -⟩
  · rw [parseWithin_encoding valid] at sameVal left
    have length := congrArg List.length (Option.some.inj left)
    simp only [List.length_drop, List.length_append] at length upTo
    refine Prod.ext sameVal.symm ?_
    rw [List.length_append]
    omega
  · rw [parseWithin_encoding valid] at isErr
    exact absurd isErr (token_ne_ERR call)

/-- A complete stream is parsed as its tokens, to its end. -/
theorem parseAll_streamOf (valid : ∀ call ∈ calls, call.Valid) (front : ByteString)
    (behind : Nat → Byte) :
    parseAll floats ⟨front ++ streamOf calls, behind⟩ calls.length front.length =
      (calls.map Call.token, (front ++ streamOf calls).length) := by
  induction calls generalizing front with
  | nil => simp [parseAll, streamOf]
  | cons call calls ih =>
      obtain ⟨validCall, others⟩ := List.forall_mem_cons.mp valid
      have rest := ih others (front ++ call.encoding)
      rw [streamOf, List.flatMap_cons, ← streamOf]
      rw [List.append_assoc] at rest
      rw [List.length_cons, parseAll, parse_encoding validCall]
      simp only [rest, List.map_cons]

end Parsing

section Promises

variable {size : Nat} {calls : List Call}

theorem runs_of_lengthFits (large : size < 2 ^ 63) (valid : ∀ call ∈ calls, call.Valid)
    (conditions : ∀ before call after, calls = before ++ call :: after →
      LengthFits size before call) : Runs size calls :=
  invariant_of_condition (Runs size) (runs_nil size)
    (fun _ _ runs validCall fits => (runs_concat_iff runs large validCall).mpr fits)
    valid conditions

/-- No call writes at or behind the end of the buffer exactly when all lengths fit. -/
theorem runs_inside_iff (large : size < 2 ^ 63) (valid : ∀ call ∈ calls, call.Valid) :
    (∀ before after, calls = before ++ after →
      ∃ pack, Pack.run size before = .ok pack ∧ pack.written.length ≤ size) ↔
        ∀ before call after, calls = before ++ call :: after → LengthFits size before call := by
  refine forall_good_iff (Runs size) (runs_nil size) ?_ ?_ ?_ valid
  · rintro before ⟨pack, isRun, holds⟩
    exact ⟨pack, isRun, holds.inside⟩
  · intro before call runs validCall fits
    exact (runs_concat_iff runs large validCall).mpr fits
  · rintro before call runs validCall ⟨pack, isRun, -⟩
    have validRun : Runs size (before ++ [call]) := runs_concat_of_ok runs large validCall isRun
    exact (runs_concat_iff runs large validCall).mp validRun

/-- A buffer that is full stays full. -/
theorem over_of_early (large : size < 2 ^ 63) (valid : ∀ call ∈ calls, call.Valid)
    {before after : List Call} (split : calls = before ++ after) {early held : Pack}
    (isEarly : Pack.run size before = .ok early) (earlyOver : early.over_ = true)
    (holds : Holds size (streamOf calls) held) : held.over_ = true := by
  have validBefore : ∀ call ∈ before, call.Valid := fun call member =>
    valid call (split ▸ List.mem_append_left after member)
  obtain ⟨first, isFirst, holdsFirst⟩ := runs_of_ok large validBefore isEarly
  cases isFirst.symm.trans isEarly
  have full := holdsFirst.full earlyOver
  cases isOver : held.over_ with
  | true => rfl
  | false =>
      have longer : (streamOf before).length ≤ (streamOf calls).length := by
        rw [split, streamOf, streamOf, List.flatMap_append, List.length_append]
        exact Nat.le_add_right _ _
      obtain ⟨-, empty | room⟩ := holds.notOver isOver
      · -- Without calls nothing was skipped.
        have noCalls := eq_nil_of_streamOf empty
        rw [noCalls] at split
        obtain ⟨rfl, -⟩ := List.append_eq_nil_iff.mp split.symm
        cases isEarly
        exact absurd earlyOver (by simp)
      · omega

end Promises

/-- Both sides of a stream keep their promises exactly when no string of `2 ^ 31` bytes or
more has its head inside of the buffer and its end at `2 ^ 32` or behind, and the stream
is shorter than `2 ^ 31` bytes or not shorter than the buffer. -/
theorem streamExact_iff (size : Nat) (calls : List Call) (large : size < 2 ^ 63)
    (valid : ∀ call ∈ calls, call.Valid) :
    StreamExact size calls ↔
      (∀ before call after, calls = before ++ call :: after → LengthFits size before call) ∧
        ((streamOf calls).length < 2 ^ 31 ∨ size ≤ (streamOf calls).length) := by
  constructor
  · intro promises
    have conditions := (runs_inside_iff large valid).mp promises.inside
    obtain ⟨pack, isRun, holds⟩ := runs_of_lengthFits large valid conditions
    refine ⟨conditions, ?_⟩
    by_contra between
    rw [not_or, not_lt, not_le] at between
    cases isOver : pack.over_ with
    | true => exact absurd (promises.overflow pack isRun isOver) (not_le.mpr between.2)
    | false =>
        obtain ⟨-, empty | room⟩ := holds.notOver isOver
        · rw [empty] at between
          simp at between
        · simp only [limit] at room
          omega
  · rintro ⟨conditions, between⟩
    obtain ⟨held, isHeld, holds⟩ := runs_of_lengthFits large valid conditions
    refine ⟨(runs_inside_iff large valid).mpr conditions, ?_, ?_, ?_⟩
    · intro pack isRun notOver floats behind
      cases isHeld.symm.trans isRun
      rw [(holds.notOver notOver).1]
      have parsed := @parseAll_streamOf floats calls valid [] behind
      rwa [List.nil_append] at parsed
    · intro pack isRun isSet
      cases isHeld.symm.trans isRun
      have full := holds.full isSet
      simp only [limit] at full
      omega
    · intro before after early pack split isEarly earlyOver isRun
      cases isHeld.symm.trans isRun
      exact over_of_early large valid split isEarly earlyOver holds

/-- A string that does not fit into a buffer of 8 bytes. -/
theorem streamExact_iff_short :
    StreamExact 8 [.packArrHead 2, .packInteger (-200), .packString [1, 2, 3, 4, 5]] := by
  refine (streamExact_iff 8 _ (by norm_num) (by simp [Call.Valid])).mpr ⟨?_, Or.inl ?_⟩
  · simp only [forall_splits_cons]
    refine ⟨trivial, trivial, ?_, forall_splits_nil⟩
    intro tooLong
    norm_num at tooLong
  · decide +kernel

/-- A string of `2 ^ 32 - 1` bytes is copied as one of length -1. -/
theorem not_streamExact : ¬ StreamExact 16 [.packString (List.replicate (2 ^ 32 - 1) 0)] := by
  intro exact_
  obtain ⟨pack, isRun, -⟩ := exact_.inside [.packString (List.replicate (2 ^ 32 - 1) 0)] []
    (List.append_nil _).symm
  have length : (List.replicate (2 ^ 32 - 1) (0 : Byte)).length = 2 ^ 32 - 1 :=
    List.length_replicate
  have valid : ∀ call ∈ [Call.packString (List.replicate (2 ^ 32 - 1) 0)], call.Valid := by
    intro call member
    rw [List.mem_singleton.mp member, Call.Valid, length]
    norm_num
  have fits := (runs_concat_iff (runs_nil 16) (by norm_num)
    (valid _ (List.mem_singleton_self _))).mp
    (runs_of_ok (by norm_num) valid isRun)
  simp only [LengthFits, length] at fits
  exact absurd (fits (by norm_num) (by decide)) (by decide)

end Msgpack

end LuaServer
