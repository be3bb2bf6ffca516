import LuaServer.MsgpackDecoding

/-!
# Encoding MessagePack

`Pack` writes into a buffer of a fixed size and only notes when something does
not fit.  `Encode::encode` writes a table as an array when its border is its
number of entries, and as a map otherwise.  What is returned is the wire form of
the value.
-/

namespace LuaServer

namespace Msgpack

open MachineIntegers Lua

/-- What ends a call of the encoder: too many nested tables, or a copy of a string
over the end of the memory. -/
inductive Failure where
  | dep
  | memory
  deriving DecidableEq, Repr

/-- `struct Pack`, with the size of `buff_` and its first `len_` bytes. -/
structure Pack where
  size : Nat
  written : ByteString
  over_ : Bool
  deriving DecidableEq, Repr

/-- The bytes of a variable in memory. -/
def bytesOf (size : Nat) (value : Int) : ByteString :=
  LittleEndian.ofInt size value

/-- `lhs == rhs` for two doubles. -/
def sameDouble (lhs rhs : Nat) : Bool :=
  !isNaN lhs && !isNaN rhs && (lhs = rhs || lhs % 2 ^ 63 = 0 && rhs % 2 ^ 63 = 0)

/-- The bytes `Pack::pack_integer` writes, a list for every call of `write`. -/
def integerWrites (val : Int) : List ByteString :=
  if val ≥ 0 then
    if val < 128 then [bytesOf 1 val]
    else if val ≤ 0xff then [[0xcc], bytesOf 1 val]
    else if val ≤ 0xffff then [[0xcd], endianChange (bytesOf 2 val)]
    else if val ≤ 0xffffffff then [[0xce], endianChange (bytesOf 4 val)]
    else [[0xcf], endianChange (bytesOf 8 val)]
  else
    if val ≥ -32 then [bytesOf 1 (0xe0 + val + 32)]
    else if val ≥ -128 then [[0xd0], bytesOf 1 val]
    else if val ≥ -32768 then [[0xd1], endianChange (bytesOf 2 val)]
    else if val ≥ -2147483648 then [[0xd2], endianChange (bytesOf 4 val)]
    else [[0xd3], endianChange (bytesOf 8 val)]

/-- The bytes `Pack::pack_double` writes. -/
def doubleWrites (floats : Floats) (val : Nat) : List ByteString :=
  let v := floats.narrow val
  if sameDouble (floats.widen v) val then [[0xca], endianChange (bytesOf 4 v)]
  else [[0xcb], endianChange (bytesOf 8 val)]

/-- The bytes `Pack::pack_string` writes before those of the string. -/
def stringWrites (len : Nat) : List ByteString :=
  if len < 32 then [bytesOf 1 (0xa0 + len)]
  else if len < 256 then [[0xd9], bytesOf 1 len]
  else if len < 65536 then [[0xda], endianChange (bytesOf 2 len)]
  else [[0xdb], endianChange (bytesOf 4 len)]

/-- The bytes of the two heads: one byte, or a type byte and the length. -/
def headWrites (fix : Nat) (two four : Byte) (len : Nat) : List ByteString :=
  if len < 16 then [bytesOf 1 (fix + len)]
  else if len < 65536 then [[two], endianChange (bytesOf 2 len)]
  else [[four], endianChange (bytesOf 4 len)]

namespace Pack

/-- `Pack::write` for the first `len` bytes at `p`. -/
def write (pack : Pack) (p : ByteString) (len : Int) : Except Failure Pack :=
  if pack.over_ then .ok pack
  else if toSizeT (toInt32 (pack.written.length + len)) ≥ pack.size then
    .ok { pack with over_ := true }
  else if len < 0 then .error .memory
  else .ok { pack with written := pack.written ++ p.take len.toNat }

/-- One `write` for each of the bytes in turn. -/
def writeAll (pack : Pack) : List ByteString → Except Failure Pack
  | [] => .ok pack
  | bytes :: rest => do
      let pack ← pack.write bytes bytes.length
      pack.writeAll rest

def packNil (pack : Pack) : Except Failure Pack :=
  pack.writeAll [[0xc0]]

def packBoolean (pack : Pack) (val : Bool) : Except Failure Pack :=
  pack.writeAll [if val then [0xc3] else [0xc2]]

def packInteger (pack : Pack) (val : Int) : Except Failure Pack :=
  pack.writeAll (integerWrites val)

def packDouble (floats : Floats) (pack : Pack) (val : Nat) : Except Failure Pack :=
  pack.writeAll (doubleWrites floats val)

/-- `Pack::pack_string`, which writes `len` bytes as an `int`. -/
def packString (pack : Pack) (p : ByteString) (len : Nat) : Except Failure Pack := do
  let pack ← pack.writeAll (stringWrites len)
  pack.write p (toInt32 len)

def packArrHead (pack : Pack) (len : Nat) : Except Failure Pack :=
  pack.writeAll (headWrites 0x90 0xdc 0xdd len)

def packMapHead (pack : Pack) (len : Nat) : Except Failure Pack :=
  pack.writeAll (headWrites 0x80 0xde 0xdf len)

end Pack

/-- `Encode::table_len`, which counts with 32 bits. -/
def tableLen (entries : List (Value × Value)) : Nat :=
  entries.length % 2 ^ 32

/-- The comparison of `Encode::encode_table`. -/
def isArray (rawlen : Nat) (entries : List (Value × Value)) : Bool :=
  toInt32 rawlen = toInt32 (tableLen entries)

namespace Encode

mutual

/-- `Encode::encode` with `Encode::encode_table`, where `dep` tables are open. -/
def encode (floats : Floats) (dep : Nat) : Value → Pack → Except Failure Pack
  | .nil, pack => pack.packNil
  | .boolean val, pack => pack.packBoolean val
  | .integer num, pack => pack.packInteger num
  | .number num, pack => pack.packDouble floats num
  | .string s, pack => pack.packString s (s.length % 2 ^ 32)
  | .table rawlen entries, pack =>
      if dep + 1 > 10 then .error .dep
      else if isArray rawlen entries then do
        let pack ← pack.packArrHead (tableLen entries)
        encodeArray floats (dep + 1) entries pack
      else do
        let pack ← pack.packMapHead (tableLen entries)
        encodeMap floats (dep + 1) entries pack

/-- The traversal that writes the values. -/
def encodeArray (floats : Floats) (dep : Nat) :
    List (Value × Value) → Pack → Except Failure Pack
  | [], pack => .ok pack
  | (_, value) :: rest, pack => do
      let pack ← encode floats dep value pack
      encodeArray floats dep rest pack

/-- The traversal that writes the keys and the values. -/
def encodeMap (floats : Floats) (dep : Nat) :
    List (Value × Value) → Pack → Except Failure Pack
  | [], pack => .ok pack
  | (key, value) :: rest, pack => do
      let pack ← encode floats dep key pack
      let pack ← encode floats dep value pack
      encodeMap floats dep rest pack

end

end Encode

/-- `enc:encode` with a buffer of `bufflen` bytes: the encoding, unless an error is
raised. -/
def encodeValue (floats : Floats) (bufflen : Fin (2 ^ 31)) (value : Value) :
    Option ByteString :=
  match Encode.encode floats 0 value ⟨bufflen, [], false⟩ with
  | .error _ => none
  | .ok pack => if pack.over_ then none else some pack.written

mutual

/-- The wire form of a value. -/
def wire (floats : Floats) : Value → ByteString
  | .nil => [0xc0]
  | .boolean val => if val then [0xc3] else [0xc2]
  | .integer num => (integerWrites num).flatten
  | .number num => (doubleWrites floats num).flatten
  | .string s => (stringWrites (s.length % 2 ^ 32)).flatten ++ s.take (s.length % 2 ^ 32)
  | .table rawlen entries =>
      if isArray rawlen entries then
        (headWrites 0x90 0xdc 0xdd (tableLen entries)).flatten ++ wireArray floats entries
      else (headWrites 0x80 0xde 0xdf (tableLen entries)).flatten ++ wireMap floats entries

def wireArray (floats : Floats) : List (Value × Value) → ByteString
  | [] => []
  | (_, value) :: rest => wire floats value ++ wireArray floats rest

def wireMap (floats : Floats) : List (Value × Value) → ByteString
  | [] => []
  | (key, value) :: rest => wire floats key ++ (wire floats value ++ wireMap floats rest)

end

section Wire

/-- A buffer no larger than an `int` with what was written inside. -/
structure Fits (pack : Pack) : Prop where
  inside : pack.written.length ≤ pack.size
  small : pack.size < 2 ^ 31

/-- Unless something did not fit, exactly the bytes were written. -/
structure Writes (pack after : Pack) (bytes : ByteString) : Prop where
  fits : Fits after
  size : after.size = pack.size
  written : after.over_ = false →
    pack.over_ = false ∧ after.written = pack.written ++ bytes

variable {pack middle after : Pack} {first second : ByteString}

theorem exists_of_bind {α β : Type} {first : Except Failure α} {next : α → Except Failure β}
    {result : β} (done : (first >>= next) = .ok result) :
    ∃ value, first = .ok value ∧ next value = .ok result := by
  cases first with
  | error failure => exact absurd done (by simp [bind, Except.bind])
  | ok value => exact ⟨value, rfl, done⟩

theorem writes_nil (fits : Fits pack) : Writes pack pack [] :=
  ⟨fits, rfl, fun notOver => ⟨notOver, (List.append_nil _).symm⟩⟩

theorem Writes.trans (writes : Writes pack middle first) (others : Writes middle after second) :
    Writes pack after (first ++ second) := by
  refine ⟨others.fits, others.size.trans writes.size, fun notOver => ?_⟩
  obtain ⟨middleNotOver, last⟩ := others.written notOver
  obtain ⟨packNotOver, before⟩ := writes.written middleNotOver
  exact ⟨packNotOver, by rw [last, before, List.append_assoc]⟩

/-- A sum of two `int`s that is below a size is the sum itself. -/
theorem lt_of_toSizeT_toInt32 {total size : Int} (lower : 0 ≤ total) (upper : total < 2 ^ 32)
    (less : toSizeT (toInt32 total) < size) : total < size := by
  have power : ((2 ^ 32 : Nat) : Int) = 2 ^ 32 := by norm_num
  have same : toSizeT (toInt32 total) % 2 ^ 32 = total := by
    rw [toSizeT, toUnsigned, Int.emod_emod_of_dvd _ (by norm_num), toInt32, toSigned, ← power,
      Int.bmod_emod, power, Int.emod_eq_of_lt lower upper]
  have notNegative : 0 ≤ toSizeT (toInt32 total) := Int.emod_nonneg _ (by norm_num)
  generalize toSizeT (toInt32 total) = stored at less same notNegative
  omega

theorem writes_write (fits : Fits pack) {p : ByteString} {len : Int} (small : len < 2 ^ 31)
    (done : pack.write p len = .ok after) :
    Writes pack after (p.take len.toNat) ∧ (after.over_ = false → 0 ≤ len) := by
  obtain ⟨inside, sizeSmall⟩ := fits
  simp only [Pack.write] at done
  split at done
  next broken =>
    obtain rfl := Except.ok.inj done
    exact ⟨⟨⟨inside, sizeSmall⟩, rfl, fun notOver => by simp [broken] at notOver⟩,
      fun notOver => by simp [broken] at notOver⟩
  next =>
    split at done
    next =>
      obtain rfl := Except.ok.inj done
      exact ⟨⟨⟨inside, sizeSmall⟩, rfl, fun notOver => by simp at notOver⟩,
        fun notOver => by simp at notOver⟩
    next notOver room =>
      split at done
      next => exact absurd done (by simp)
      next notNegative =>
        obtain rfl := Except.ok.inj done
        have enough : pack.written.length + len < pack.size :=
          lt_of_toSizeT_toInt32 (by omega) (by omega) (not_le.mp room)
        refine ⟨⟨⟨?_, sizeSmall⟩, rfl, fun _ => ⟨by simpa using notOver, rfl⟩⟩,
          fun _ => not_lt.mp notNegative⟩
        have cut := List.length_take_le len.toNat p
        simp only [List.length_append]
        omega

theorem writes_writeAll (fits : Fits pack) {writes : List ByteString}
    (small : ∀ bytes ∈ writes, bytes.length ≤ 8) (done : pack.writeAll writes = .ok after) :
    Writes pack after writes.flatten := by
  induction writes generalizing pack with
  | nil =>
      obtain rfl := Except.ok.inj done
      exact writes_nil fits
  | cons bytes rest ih =>
      rw [Pack.writeAll] at done
      obtain ⟨middle, isMiddle, isAfter⟩ := exists_of_bind done
      have length := small bytes List.mem_cons_self
      have first := (writes_write fits (by omega) isMiddle).1
      rw [Int.toNat_natCast, List.take_length] at first
      rw [List.flatten_cons]
      exact first.trans (ih first.fits
        (fun other member => small other (List.mem_cons_of_mem bytes member)) isAfter)

@[simp]
theorem length_bytesOf (size : Nat) (value : Int) : (bytesOf size value).length = size :=
  LittleEndian.length_ofInt size value

@[simp]
theorem length_endianChange (bytes : ByteString) : (endianChange bytes).length = bytes.length :=
  List.length_reverse

theorem length_integerWrites {val : Int} {bytes : ByteString}
    (member : bytes ∈ integerWrites val) : bytes.length ≤ 8 := by
  revert member
  simp only [integerWrites]
  split_ifs <;> simp +contextual [or_imp]

theorem length_doubleWrites {floats : Floats} {val : Nat} {bytes : ByteString}
    (member : bytes ∈ doubleWrites floats val) : bytes.length ≤ 8 := by
  revert member
  simp only [doubleWrites]
  split_ifs <;> simp +contextual [or_imp]

theorem length_stringWrites {len : Nat} {bytes : ByteString}
    (member : bytes ∈ stringWrites len) : bytes.length ≤ 8 := by
  revert member
  simp only [stringWrites]
  split_ifs <;> simp +contextual [or_imp]

theorem length_headWrites {fix len : Nat} {two four : Byte} {bytes : ByteString}
    (member : bytes ∈ headWrites fix two four len) : bytes.length ≤ 8 := by
  revert member
  simp only [headWrites]
  split_ifs <;> simp +contextual [or_imp]

/-- A string that fits is written up to its length modulo `2 ^ 32`. -/
theorem writes_packString (fits : Fits pack) {p : ByteString} {len : Nat}
    (small : len < 2 ^ 32) (done : pack.packString p len = .ok after) :
    Writes pack after ((stringWrites len).flatten ++ p.take len) := by
  obtain ⟨middle, isMiddle, isAfter⟩ := exists_of_bind done
  have first := writes_writeAll fits (fun _ => length_stringWrites) isMiddle
  have upper : toInt32 len < 2 ^ 31 := by
    have range := Int.bmod_lt (x := len) (m := 2 ^ 32) (by norm_num)
    norm_num at range ⊢
    exact range
  obtain ⟨second, notNegative⟩ := writes_write first.fits upper isAfter
  by_cases whole : after.over_ = false
  · have same : toInt32 len = len := by
      have positive := notNegative whole
      by_contra wrapped
      have large : 2147483648 ≤ (len : Int) := by
        by_contra less
        exact wrapped (toInt32_of_range (by omega) (by omega))
      rw [toInt32_of_large large (by omega)] at positive
      omega
    rw [same, Int.toNat_natCast] at second
    exact first.trans second
  · exact ⟨second.fits, second.size.trans first.size, fun notOver => absurd notOver whole⟩

/-- What the traversals write when every value in them is written as its wire form. -/
theorem writes_encodeArray {floats : Floats} {dep : Nat} {entries : List (Value × Value)}
    (each : ∀ entry ∈ entries, ∀ pack after : Pack, Fits pack →
      Encode.encode floats dep entry.2 pack = .ok after →
        Writes pack after (wire floats entry.2))
    (fits : Fits pack) (done : Encode.encodeArray floats dep entries pack = .ok after) :
    Writes pack after (wireArray floats entries) := by
  induction entries generalizing pack with
  | nil =>
      rw [Encode.encodeArray] at done
      obtain rfl := Except.ok.inj done
      rw [wireArray]
      exact writes_nil fits
  | cons entry rest ih =>
      rw [Encode.encodeArray] at done
      obtain ⟨middle, isMiddle, isAfter⟩ := exists_of_bind done
      have first := each entry List.mem_cons_self pack middle fits isMiddle
      rw [wireArray]
      exact first.trans (ih (fun other member => each other (List.mem_cons_of_mem entry member))
        first.fits isAfter)

theorem writes_encodeMap {floats : Floats} {dep : Nat} {entries : List (Value × Value)}
    (each : ∀ entry ∈ entries, ∀ pack after : Pack, Fits pack →
      (Encode.encode floats dep entry.1 pack = .ok after →
        Writes pack after (wire floats entry.1)) ∧
      (Encode.encode floats dep entry.2 pack = .ok after →
        Writes pack after (wire floats entry.2)))
    (fits : Fits pack) (done : Encode.encodeMap floats dep entries pack = .ok after) :
    Writes pack after (wireMap floats entries) := by
  induction entries generalizing pack with
  | nil =>
      rw [Encode.encodeMap] at done
      obtain rfl := Except.ok.inj done
      rw [wireMap]
      exact writes_nil fits
  | cons entry rest ih =>
      rw [Encode.encodeMap] at done
      obtain ⟨middle, isMiddle, others⟩ := exists_of_bind done
      obtain ⟨last, isLast, isAfter⟩ := exists_of_bind others
      have first := (each entry List.mem_cons_self pack middle fits).1 isMiddle
      have second := (each entry List.mem_cons_self middle last first.fits).2 isLast
      rw [wireMap]
      exact first.trans (second.trans
        (ih (fun other member => each other (List.mem_cons_of_mem entry member))
          second.fits isAfter))

/-- The encoder writes the wire form, unless it does not fit. -/
theorem writes_encode {floats : Floats} (value : Value) {dep : Nat} (fits : Fits pack)
    (done : Encode.encode floats dep value pack = .ok after) :
    Writes pack after (wire floats value) := by
  induction value generalizing dep pack after with
  | nil => exact writes_writeAll fits (by simp) done
  | boolean val =>
      rw [wire, ← List.append_nil (if val then _ else _)]
      exact writes_writeAll fits (by cases val <;> simp) done
  | integer num => exact writes_writeAll fits (fun _ => length_integerWrites) done
  | number num => exact writes_writeAll fits (fun _ => length_doubleWrites) done
  | string s => exact writes_packString fits (Nat.mod_lt _ (by norm_num)) done
  | table rawlen entries ih =>
      rw [Encode.encode] at done
      split at done
      next => exact absurd done (by simp)
      next =>
        rw [wire]
        split at done
        next array =>
          obtain ⟨middle, isMiddle, isAfter⟩ := exists_of_bind done
          have first := writes_writeAll fits (fun _ => length_headWrites) isMiddle
          rw [if_pos array]
          exact first.trans (writes_encodeArray
            (fun entry member pack after fits => (ih entry member).2 fits) first.fits isAfter)
        next notArray =>
          obtain ⟨middle, isMiddle, isAfter⟩ := exists_of_bind done
          have first := writes_writeAll fits (fun _ => length_headWrites) isMiddle
          rw [if_neg notArray]
          have each : ∀ entry ∈ entries, ∀ pack after : Pack, Fits pack →
              (Encode.encode floats (dep + 1) entry.1 pack = .ok after →
                Writes pack after (wire floats entry.1)) ∧
              (Encode.encode floats (dep + 1) entry.2 pack = .ok after →
                Writes pack after (wire floats entry.2)) :=
            fun entry member pack after fits => ⟨(ih entry member).1 fits, (ih entry member).2 fits⟩
          exact first.trans (writes_encodeMap each first.fits isAfter)

theorem encodeValue_eq_some {floats : Floats} {bufflen : Fin (2 ^ 31)} {value : Value}
    {encoded : ByteString} (returned : encodeValue floats bufflen value = some encoded) :
    encoded = wire floats value ∧ encoded.length < 2 ^ 31 := by
  rw [encodeValue] at returned
  have fits : Fits ⟨bufflen, [], false⟩ := ⟨Nat.zero_le _, bufflen.isLt⟩
  cases done : Encode.encode floats 0 value ⟨bufflen, [], false⟩ with
  | error failure => simp [done] at returned
  | ok pack =>
      simp only [done, Option.ite_none_left_eq_some, Option.some.injEq] at returned
      obtain ⟨notOver, rfl⟩ := returned
      have writes := writes_encode value fits done
      obtain ⟨-, written⟩ := writes.written (by simpa using notOver)
      exact ⟨written, lt_of_le_of_lt writes.fits.inside writes.fits.small⟩

end Wire

end Msgpack

end LuaServer
