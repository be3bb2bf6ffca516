import LuaServer.MsgpackReading

/-!
# The encoder of the script

`encoder_functions` builds the strings of a value with `string.pack` and joins
those of a table.  A table is an array when its keys are visited as 1, 2 and so
on.  Whether a string is written as text or as bytes is decided by `utf8.len`.
-/

namespace LuaServer

namespace Msgpack

open MachineIntegers Lua

/-- The items of a format of `string.pack` in big endian order with the numbers of
their bytes: integers without and with a sign, and strings behind their length;
a `float`, and a `double`. -/
inductive Item where
  | I (size : Nat) (n : Int)
  | i (size : Nat) (n : Int)
  | s (size : Nat) (text : ByteString)
  | f (bits : Nat)
  | d (bits : Nat)

/-- The bytes of an item; `string.pack` raises an error when they are too few. -/
def Item.pack (floats : Floats) : Item → Option ByteString
  | .I size n =>
      if size < 8 ∧ toUnsigned 64 n ≥ 2 ^ (8 * size) then none
      else some (endianChange (bytesOf size n))
  | .i size n =>
      if size < 8 ∧ ¬ (-2 ^ (8 * size) ≤ 2 * n ∧ 2 * n < 2 ^ (8 * size)) then none
      else some (endianChange (bytesOf size n))
  | .s size text =>
      if size < 8 ∧ text.length ≥ 2 ^ (8 * size) then none
      else some (endianChange (bytesOf size text.length) ++ text)
  | .f bits => some (endianChange (bytesOf 4 (floats.narrow bits)))
  | .d bits => some (endianChange (bytesOf 8 bits))

/-- `string.pack`. -/
def pack (floats : Floats) : List Item → Option ByteString
  | [] => some []
  | item :: rest => do
      let bytes ← item.pack floats
      let others ← pack floats rest
      return bytes ++ others

namespace Script

/-- `is_an_array`, where the next key is expected to be this one. -/
def isAnArray (expected : Int) : List (Value × Value) → Bool
  | [] => true
  | (k, _) :: rest =>
      if k.key ≠ some (.integer expected) then false else isAnArray (expected + 1) rest

/-- The format for an integer. -/
def integerItems (value : Int) : List Item :=
  if value ≥ 0 then
    if value < 128 then [.I 1 value]
    else if value ≤ 0xff then [.I 1 0xcc, .I 1 value]
    else if value ≤ 0xffff then [.I 1 0xcd, .I 2 value]
    else if value ≤ 0xffffffff then [.I 1 0xce, .I 4 value]
    else [.I 1 0xcf, .I 8 value]
  else
    if value ≥ -32 then [.I 1 (0xe0 + (value + 32))]
    else if value ≥ -128 then [.I 1 0xd0, .i 1 value]
    else if value ≥ -32768 then [.I 1 0xd1, .i 2 value]
    else if value ≥ -2147483648 then [.I 1 0xd2, .i 4 value]
    else [.I 1 0xd3, .i 8 value]

/-- The format for a floating point number. -/
def floatItems (floats : Floats) (value : Nat) : List Item :=
  if sameDouble (floats.widen (floats.narrow value)) value then [.I 1 0xca, .f value]
  else [.I 1 0xcb, .d value]

/-- The function for strings. -/
def encodeString (floats : Floats) (utf8len : ByteString → Option Nat) (value : ByteString) :
    Option ByteString :=
  let len := value.length
  if (utf8len value).isSome then
    if len < 32 then do
      let bytes ← pack floats [.I 1 (0xa0 + len)]
      return bytes ++ value
    else if len < 256 then pack floats [.I 1 0xd9, .s 1 value]
    else if len < 65536 then pack floats [.I 1 0xda, .s 2 value]
    else pack floats [.I 1 0xdb, .s 4 value]
  else
    if len < 256 then pack floats [.I 1 0xc4, .s 1 value]
    else if len < 65536 then pack floats [.I 1 0xc5, .s 2 value]
    else pack floats [.I 1 0xc6, .s 4 value]

/-- The formats for the head of a table: one byte, or a type byte and the length. -/
def headItems (fix : Nat) (two four : Byte) (length : Nat) : List Item :=
  if length < 16 then [.I 1 (fix + length)]
  else if length < 65536 then [.I 1 two, .I 2 length]
  else [.I 1 four, .I 4 length]

mutual

/-- `encode_value` with `encoder_functions`. -/
def encodeValue (floats : Floats) (utf8len : ByteString → Option Nat) :
    Value → Option ByteString
  | .nil => pack floats [.I 1 0xc0]
  | .boolean value => if value then pack floats [.I 1 0xc3] else pack floats [.I 1 0xc2]
  | .integer value => pack floats (integerItems value)
  | .number value => pack floats (floatItems floats value)
  | .string value => encodeString floats utf8len value
  | .table _ value =>
      if isAnArray 1 value then do
        let elements ← encodeElements floats utf8len value
        let bytes ← pack floats (headItems 0x90 0xdc 0xdd elements.length)
        return bytes ++ elements.flatten
      else do
        let elements ← encodePairs floats utf8len value
        let bytes ← pack floats (headItems 0x80 0xde 0xdf (elements.length / 2))
        return bytes ++ elements.flatten

/-- The loop over an array. -/
def encodeElements (floats : Floats) (utf8len : ByteString → Option Nat) :
    List (Value × Value) → Option (List ByteString)
  | [] => some []
  | (_, v) :: rest => do
      -- The keys are the places, as `is_an_array` has found.
      let element ← encodeValue floats utf8len v
      let elements ← encodeElements floats utf8len rest
      return element :: elements

/-- The loop over a map. -/
def encodePairs (floats : Floats) (utf8len : ByteString → Option Nat) :
    List (Value × Value) → Option (List ByteString)
  | [] => some []
  | (k, v) :: rest => do
      let key ← encodeValue floats utf8len k
      let value ← encodeValue floats utf8len v
      let elements ← encodePairs floats utf8len rest
      return key :: value :: elements

end

/-- `msgpack.encode_one`, which returns `nil` for an error. -/
def encodeOne (floats : Floats) (utf8len : ByteString → Option Nat) (value : Value) :
    Option ByteString :=
  encodeValue floats utf8len value

section Packed

variable {floats : Floats}

theorem pack_one {item : Item} {bytes : ByteString} (isPacked : item.pack floats = some bytes) :
    pack floats [item] = some bytes := by
  simp [pack, isPacked]

theorem pack_two {item other : Item} {bytes others : ByteString}
    (isPacked : item.pack floats = some bytes) (isOther : other.pack floats = some others) :
    pack floats [item, other] = some (bytes ++ others) := by
  simp [pack, isPacked, isOther]

theorem pack_I {size : Nat} {n : Int} (notNegative : 0 ≤ n) (fits : n < 2 ^ (8 * size))
    (small : n < 2 ^ 64) :
    (Item.I size n).pack floats = some (endianChange (bytesOf size n)) := by
  have same : toUnsigned 64 n = n := Int.emod_eq_of_lt notNegative small
  rw [Item.pack, if_neg]
  rw [same]
  exact fun large => not_le.mpr fits large.2

theorem pack_i {size : Nat} {n : Int} (lower : -2 ^ (8 * size) ≤ 2 * n)
    (upper : 2 * n < 2 ^ (8 * size)) :
    (Item.i size n).pack floats = some (endianChange (bytesOf size n)) := by
  rw [Item.pack, if_neg]
  exact fun large => large.2 ⟨lower, upper⟩

theorem pack_s {size : Nat} {text : ByteString} (fits : text.length < 2 ^ (8 * size)) :
    (Item.s size text).pack floats =
      some (endianChange (bytesOf size text.length) ++ text) := by
  rw [Item.pack, if_neg]
  exact fun large => not_le.mpr fits large.2

/-- Both encoders write the same bytes for an integer. -/
theorem pack_integerItems {value : Int} (lower : -2 ^ 63 ≤ value) (upper : value < 2 ^ 63) :
    pack floats (integerItems value) = some (integerWrites value).flatten := by
  rw [integerItems, integerWrites, ← add_assoc]
  split_ifs
  · exact pack_one (pack_I (by omega) (by omega) (by omega))
  · exact pack_two rfl (pack_I (by omega) (by omega) (by omega))
  · exact pack_two rfl (pack_I (by omega) (by omega) (by omega))
  · exact pack_two rfl (pack_I (by omega) (by omega) (by omega))
  · exact pack_two rfl (pack_I (by omega) (by omega) (by omega))
  · exact pack_one (pack_I (by omega) (by omega) (by omega))
  · exact pack_two rfl (pack_i (by omega) (by omega))
  · exact pack_two rfl (pack_i (by omega) (by omega))
  · exact pack_two rfl (pack_i (by omega) (by omega))
  · exact pack_two rfl (pack_i (by omega) (by omega))

theorem pack_headItems {fix : Nat} {two four : Byte} {length : Nat} (fixSmall : fix ≤ 240)
    (small : length < 2 ^ 32) :
    pack floats (headItems fix two four length) =
      some (headWrites fix two four length).flatten := by
  have isByte : ∀ m : Byte, (Item.I 1 m).pack floats = some [m] := by
    intro m
    obtain ⟨byte, same, value⟩ := exists_bytesOf_one (m : Nat)
    obtain rfl : byte = m := Fin.ext (by omega)
    rw [pack_I (by omega) (by omega) (by omega), endianChange_bytesOf_one, same]
  rw [headItems, headWrites]
  split_ifs
  · exact pack_one (pack_I (by omega) (by omega) (by omega))
  · exact pack_two (isByte two) (pack_I (by omega) (by omega) (by omega))
  · exact pack_two (isByte four) (pack_I (by omega) (by omega) (by omega))

theorem decodes_field {m : Byte} {size : Nat} {text : ByteString}
    (isHeader : header floats m = (size, .content)) (fits : text.length < 2 ^ (8 * size)) :
    Decodes floats ([m] ++ (endianChange (bytesOf size text.length) ++ text)) (.string text)
      1 := by
  refine @decodes_single floats _ (.STR text) _ rfl fun rest => ?_
  simpa using parseWithin_string size isHeader fits rest

/-- A string is written as text or as bytes, and read back as the string. -/
theorem decodes_encodeString (utf8len : ByteString → Option Nat) {value : ByteString}
    (short : value.length < 2 ^ 32) :
    ∃ encoded, encodeString floats utf8len value = some encoded ∧
      Decodes floats encoded (.string value) 1 := by
  rw [encodeString]
  split_ifs
  next isShort =>
    have isHead : (stringWrites value.length).flatten = bytesOf 1 (0xa0 + value.length) := by
      rw [stringWrites, if_pos isShort]
      exact List.append_nil _
    refine ⟨_, by rw [pack_one (pack_I (by omega) (by omega) (by omega))]; rfl, ?_⟩
    rw [endianChange_bytesOf_one, ← isHead]
    exact decodes_string short
  · exact ⟨_, pack_two rfl (pack_s (by omega)), decodes_field rfl (by omega)⟩
  · exact ⟨_, pack_two rfl (pack_s (by omega)), decodes_field rfl (by omega)⟩
  · exact ⟨_, pack_two rfl (pack_s (by omega)), decodes_field rfl (by omega)⟩
  · exact ⟨_, pack_two rfl (pack_s (by omega)), decodes_field rfl (by omega)⟩
  · exact ⟨_, pack_two rfl (pack_s (by omega)), decodes_field rfl (by omega)⟩
  · exact ⟨_, pack_two rfl (pack_s (by omega)), decodes_field rfl (by omega)⟩

end Packed

section Values

variable {floats : Floats} {utf8len : ByteString → Option Nat}

/-- The test of the script, which does not know a border. -/
def asArray (_ : Nat) (entries : List (Value × Value)) : Bool :=
  isAnArray 1 entries

/-- The value is encoded, and its encoding is decoded to a copy of it. -/
def Transmitted (floats : Floats) (utf8len : ByteString → Option Nat) (value : Value) : Prop :=
  ∃ encoded, encodeValue floats utf8len value = some encoded ∧
    Decodes floats encoded value.copied (slots asArray value)

theorem decodes_encodeElements {entries : List (Value × Value)}
    (each : ∀ entry ∈ entries, Transmitted floats utf8len entry.2) :
    ∃ elements, encodeElements floats utf8len entries = some elements ∧
      List.Forall₂ (fun element held => Decodes floats element held.1 held.2) elements
        (entries.map fun entry => (entry.2.copied, slots asArray entry.2)) := by
  induction entries with
  | nil => exact ⟨[], rfl, .nil⟩
  | cons entry entries ih =>
      obtain ⟨element, isElement, first⟩ := each entry List.mem_cons_self
      obtain ⟨elements, areElements, others⟩ :=
        ih fun other member => each other (List.mem_cons_of_mem entry member)
      exact ⟨element :: elements, by simp [encodeElements, isElement, areElements],
        .cons first others⟩

theorem keyError_copied {key : Value} (plain : key.IsPlainKey) : keyError key.copied = none := by
  cases key with
  | integer i => rfl
  | string s => rfl
  | nil | boolean | number | table => exact plain.elim

theorem decodes_encodePairs {entries : List (Value × Value)}
    (plain : ∀ entry ∈ entries, entry.1.IsPlainKey)
    (each : ∀ entry ∈ entries, Transmitted floats utf8len entry.1 ∧
      Transmitted floats utf8len entry.2) :
    ∃ elements chunks, encodePairs floats utf8len entries = some elements ∧
      elements.length / 2 = entries.length ∧ elements.flatten = joined chunks ∧
      List.Forall₂ (DecodesEntry floats) chunks (entries.map fun entry =>
        ((entry.1.copied, slots asArray entry.1), (entry.2.copied, slots asArray entry.2))) := by
  induction entries with
  | nil => exact ⟨[], [], rfl, rfl, rfl, .nil⟩
  | cons entry entries ih =>
      obtain ⟨⟨key, isKey, first⟩, value, isValue, second⟩ := each entry List.mem_cons_self
      obtain ⟨elements, chunks, areElements, count, same, others⟩ :=
        ih (fun other member => plain other (List.mem_cons_of_mem entry member))
          fun other member => each other (List.mem_cons_of_mem entry member)
      refine ⟨key :: value :: elements, (key, value) :: chunks,
        by simp [encodePairs, isKey, isValue, areElements], ?_, ?_, ?_⟩
      · simp only [List.length_cons]
        omega
      · simp [joined, same]
      · exact .cons ⟨first, second, keyError_copied (plain entry List.mem_cons_self)⟩ others

/-- The copy of an array is assigned like the elements that are read back. -/
theorem copiedEntries_of_isAnArray {entries : List (Value × Value)} {index : Nat}
    (plain : ∀ entry ∈ entries, entry.1.IsPlainKey)
    (array : isAnArray (index + 1) entries = true) :
    copiedEntries entries = elements index (entries.map fun entry => entry.2.copied) := by
  induction entries generalizing index with
  | nil => rfl
  | cons entry entries ih =>
      obtain ⟨key, value⟩ := entry
      rw [isAnArray] at array
      split at array
      next => exact absurd array (by simp)
      next expected =>
        have isKey : key = .integer (index + 1) := by
          have plainKey := plain (key, value) List.mem_cons_self
          cases key with
          | integer i => simpa [Value.key] using expected
          | string s => simp [Value.key] at expected
          | nil | boolean | number | table => exact plainKey.elim
        rw [copiedEntries, List.map_cons, elements_cons, ih
          (fun other member => plain other (List.mem_cons_of_mem _ member))
          (by exact_mod_cast array), isKey]
        rfl

/-- Every value without floating point numbers is encoded, and its encoding is read
back as a copy. -/
theorem transmitted (value : Value) (stored : value.All Value.IsStored)
    (plain : value.All Value.IsPlain) (short : value.All Value.IsShort) :
    Transmitted floats utf8len value := by
  induction value with
  | nil => exact ⟨[0xc0], rfl, decodes_single rfl fun _ => rfl⟩
  | boolean b =>
      cases b with
      | false => exact ⟨[0xc2], rfl, decodes_single rfl fun _ => rfl⟩
      | true => exact ⟨[0xc3], rfl, decodes_single rfl fun _ => rfl⟩
  | integer i =>
      exact ⟨_, pack_integerItems stored.1 stored.2,
        decodes_single rfl (parse_integer stored.1 stored.2)⟩
  | number bits => exact plain.elim
  | string s => exact decodes_encodeString utf8len short
  | table rawlen entries ih =>
      obtain ⟨⟨-, -, -, few⟩, storedInside⟩ := stored
      obtain ⟨plainKeys, plainInside⟩ := plain
      obtain ⟨-, shortInside⟩ := short
      rw [allEntries_iff] at storedInside plainInside shortInside
      have inside : ∀ entry ∈ entries, Transmitted floats utf8len entry.1 ∧
          Transmitted floats utf8len entry.2 := fun entry member =>
        ⟨(ih entry member).1 (storedInside entry member).1 (plainInside entry member).1
            (shortInside entry member).1,
          (ih entry member).2 (storedInside entry member).2 (plainInside entry member).2
            (shortInside entry member).2⟩
      rw [Transmitted, encodeValue, Value.copied, slots]
      by_cases array : isAnArray 1 entries = true
      · obtain ⟨chunks, areElements, each⟩ :=
          decodes_encodeElements fun entry member => (inside entry member).2
        have count : chunks.length = entries.length := by simpa using each.length_eq
        have same := @copiedEntries_of_isAnArray entries 0 plainKeys (by simpa using array)
        have isHead := @pack_headItems floats 0x90 0xdc 0xdd _ (by norm_num) few
        have decodes := @decodes_array floats (headWrites 0x90 0xdc 0xdd entries.length).flatten
          _ _ (fun rest => ?_) each
        · rw [if_pos array, areElements, same, asArray, if_pos array,
            slotsOfArray_eq fun entry => entry.2.copied]
          rw [List.map_map] at decodes
          exact ⟨(headWrites 0x90 0xdc 0xdd entries.length).flatten ++ chunks.flatten,
            by simp [count, isHead], decodes⟩
        · rw [List.length_map]
          exact parse_array few rest
      · obtain ⟨elements, chunks, areElements, count, same, each⟩ :=
          decodes_encodePairs plainKeys inside
        have isHead := @pack_headItems floats 0x80 0xde 0xdf _ (by norm_num) few
        have decodes := @decodes_map floats (headWrites 0x80 0xde 0xdf entries.length).flatten
          _ _ (fun rest => ?_) each
        · rw [if_neg array, areElements, copiedEntries_eq, asArray, if_neg array,
            slotsOfMap_eq (fun entry => entry.1.copied) fun entry => entry.2.copied]
          rw [List.map_map] at decodes
          exact ⟨(headWrites 0x80 0xde 0xdf entries.length).flatten ++ joined chunks,
            by simp [count, isHead, same], decodes⟩
        · rw [List.length_map]
          exact parse_map few rest

end Values

section Stack

/-- The slots that Lua promises a C function above its arguments. -/
def LUA_MINSTACK : Nat := 20

/-- The value is encoded, and `lmsgpack.decode` reads it back from all bytes of the
encoding, on a Lua stack with so many slots above the argument. -/
def ReadBack (floats : Floats) (utf8len : ByteString → Option Nat) (stack : Nat)
    (value : Value) : Prop :=
  ∃ encoded, encodeOne floats utf8len value = some encoded ∧
    ∀ behind, ∃ read, decodeStringOn (· < stack) floats ⟨encoded, behind⟩ =
        .returned read encoded.length ∧ Equal value read

theorem ReadBack.fits {floats : Floats} {utf8len : ByteString → Option Nat} {stack : Nat}
    {value : Value} (readBack : ReadBack floats utf8len stack value)
    (transmitted : Transmitted floats utf8len value) : slots asArray value ≤ stack := by
  obtain ⟨encoded, isEncoded, decodes⟩ := transmitted
  obtain ⟨_, isAlsoEncoded, reads⟩ := readBack
  obtain rfl := Option.some.inj (isEncoded.symm.trans isAlsoEncoded)
  rw [← hasRoom_limit]
  by_contra lacks
  obtain ⟨read, returned, -⟩ := reads fun _ => 0
  obtain ⟨ps, overruns⟩ := (decodes.decodeStringOn_iff _ fun _ => 0).2 lacks
  exact absurd (overruns.symm.trans returned) (by simp)

/-- The decoder reads everything the script writes, and takes exactly the bytes of
the encoding, as long as the stack has the slots that the value needs. -/
theorem readBack_iff (floats : Floats) (utf8len : ByteString → Option Nat) (stack : Nat)
    (value : Value) (stored : value.All Value.IsStored) (plain : value.All Value.IsPlain)
    (short : value.All Value.IsShort) :
    ReadBack floats utf8len stack value ↔ slots asArray value ≤ stack := by
  have transmitted : Transmitted floats utf8len value := transmitted value stored plain short
  constructor
  · exact fun readBack => readBack.fits transmitted
  · intro fits
    obtain ⟨encoded, isEncoded, decodes⟩ := transmitted
    exact ⟨encoded, isEncoded, fun behind =>
      ⟨_, (decodes.decodeStringOn_iff _ behind).1 (hasRoom_limit.mpr fits),
        equal_copied value stored⟩⟩

/-- A map with an array and another map in it. -/
theorem readBack_iff_map :
    ReadBack ⟨fun bits => bits % 2 ^ 32, id, fun bits => Nat.mod_lt bits (Nat.two_pow_pos 32)⟩
      (fun s => if s.all (· < 128) then some s.length else none) LUA_MINSTACK
      (.table 0 [(.string [107], .integer (-33)),
        (.integer 5, .table 2 [(.integer 1, .boolean true), (.integer 2, .string [200, 1])]),
        (.string [], .table 0 [(.integer (-1), .integer (2 ^ 40)),
          (.string [65], .string [66])])]) :=
  (readBack_iff _ _ _ _
    (by simp [Value.All, AllEntries, Value.IsStored, Value.IsKey, IsBorder, KeysApart, lookup,
      Value.key])
    (by simp [Value.All, AllEntries, Value.IsPlain, Value.IsPlainKey])
    (by simp [Value.All, AllEntries, Value.IsShort])).mpr (by decide)

/-- So many arrays, each the only element of the next one. -/
def nested : Nat → Value
  | 0 => .table 0 []
  | levels + 1 => .table 1 [(.integer 1, nested levels)]

theorem nested_all {holds : Value → Prop} (number : holds (.integer 1))
    (innermost : holds (nested 0))
    (around : ∀ levels, holds (nested (levels + 1))) (levels : Nat) :
    (nested levels).All holds := by
  induction levels with
  | zero => exact ⟨innermost, trivial⟩
  | succ levels ih => exact ⟨around levels, number, ih, trivial⟩

theorem slots_nested (levels : Nat) : slots asArray (nested levels) = levels + 1 := by
  induction levels with
  | zero => rfl
  | succ levels ih =>
      have array : asArray 1 [(.integer 1, nested levels)] = true := rfl
      rw [nested, slots, if_pos array, slotsOfArray, slotsOfArray, ih, Nat.max_zero]

/-- A hundred arrays do not fit on the stack that Lua promises. -/
theorem not_readBack_nested :
    ¬ ∀ (floats : Floats) (utf8len : ByteString → Option Nat) (value : Value),
      value.All Value.IsStored → value.All Value.IsPlain → value.All Value.IsShort →
        ReadBack floats utf8len LUA_MINSTACK value := by
  intro always
  have stored : (nested 99).All Value.IsStored := by
    refine nested_all ?_ ?_ (fun levels => ?_) 99
    · norm_num [Value.IsStored]
    · simp [nested, Value.IsStored, KeysApart, IsBorder, lookup]
    · have notNil : nested levels ≠ .nil := by cases levels <;> simp [nested]
      simp [nested, Value.IsStored, Value.IsKey, KeysApart, IsBorder, lookup, Value.key, notNil]
  have plain : (nested 99).All Value.IsPlain :=
    nested_all trivial (by simp [nested, Value.IsPlain])
      (fun levels => by simp [nested, Value.IsPlain, Value.IsPlainKey]) 99
  have short : (nested 99).All Value.IsShort :=
    nested_all trivial trivial (fun levels => trivial) 99
  let floats : Floats :=
    ⟨fun bits => bits % 2 ^ 32, id, fun bits => Nat.mod_lt bits (Nat.two_pow_pos 32)⟩
  have fits := (always floats (fun s => some s.length) _ stored plain short).fits
    (transmitted _ stored plain short)
  rw [slots_nested] at fits
  exact absurd fits (by decide)

end Stack

end Script

end Msgpack

end LuaServer
