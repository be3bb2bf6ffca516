import LuaServer.MsgpackReading

/-!
# Encoding and decoding a value

A table is written as an array when its border is its number of entries, and then
its values are written in the order in which they are visited.  The array that is
read back holds the first value visited under 1, whatever key it had.  What a
stored value is read back as is therefore described by a second value.
-/

namespace LuaServer

namespace Msgpack

open Lua

/-- Encoding the value, when it succeeds, and decoding returns an equal value,
whatever stands behind the encoding in memory. -/
def RoundTrips (floats : Floats) (bufflen : Fin (2 ^ 31)) (value : Value) : Prop :=
  ∀ encoded, encodeValue floats bufflen value = some encoded → ∀ behind,
    ∃ read ps, decodeString floats ⟨encoded, behind⟩ = .returned read ps ∧ Equal value read

/-- A stored value spells the contents of another one.  A table that counts as an
array spells one whose keys are 1 up to its number of entries, and the value
visited at a place is spelled for the key of that place; another table spells its
own keys. -/
inductive Spells : Value → Value → Prop where
  | nil : Spells .nil .nil
  | boolean (b : Bool) : Spells (.boolean b) (.boolean b)
  | integer (i : Int) : Spells (.integer i) (.integer i)
  | string (s : ByteString) : Spells (.string s) (.string s)
  | array {rawlen other : Nat} {entries contents : List (Value × Value)}
      (array : isArray rawlen entries = true)
      (keys : ∀ key, (lookup contents key).isSome ↔
        ∃ index < entries.length, key = .integer (index + 1))
      (values : ∀ (index : Nat) entry value, entries[index]? = some entry →
        lookup contents (.integer (index + 1)) = some value → Spells entry.2 value) :
      Spells (.table rawlen entries) (.table other contents)
  | map {rawlen other : Nat} {entries contents : List (Value × Value)}
      (map : isArray rawlen entries = false)
      (keys : ∀ key, (lookup contents key).isSome ↔ (lookup entries key).isSome)
      (values : ∀ key stored value, lookup entries key = some stored →
        lookup contents key = some value → Spells stored value) :
      Spells (.table rawlen entries) (.table other contents)

section Pushed

variable {floats : Floats}

theorem pushed_ne_nil {value : Value} (notNil : value ≠ .nil) : pushed floats value ≠ .nil := by
  cases value with
  | nil => exact absurd rfl notNil
  | boolean | integer | number | string | table => simp [pushed]

theorem pushed_string {s : ByteString} (short : s.length < 2 ^ 32) :
    pushed floats (.string s) = .string s := by
  rw [pushed, Nat.mod_eq_of_lt short, List.take_length]

theorem key_pushed {key : Value} (plain : key.IsPlainKey) (short : key.IsShort) :
    (pushed floats key).key = key.key := by
  cases key with
  | integer i => rfl
  | string s =>
      rw [pushed_string short]
      rfl
  | nil | boolean | number | table => exact plain.elim

theorem assignedAt_array {entries : List (Value × Value)}
    (values : ∀ entry ∈ entries, entry.2 ≠ .nil) {key : Key} {read : Pushed} :
    assignedAt (elements 0 (entries.map fun entry => pushed floats entry.2)) key = some read ↔
      ∃ (index : Nat) (entry : Value × Value), key = .integer (index + 1) ∧
        entries[index]? = some entry ∧ pushed floats entry.2 = read := by
  have notNil : ∀ read ∈ entries.map fun entry => pushed floats entry.2, read ≠ .nil :=
    List.forall_mem_map.mpr fun entry member => pushed_ne_nil (values entry member)
  rw [assignedAt_elements notNil]
  simp only [List.getElem?_map, Option.map_eq_some_iff, exists_and_left]

section Tables

variable {rawlen : Nat} {entries : List (Value × Value)}
  (values : ∀ entry ∈ entries, entry.2 ≠ .nil)
  (inside : ∀ entry ∈ entries, ∀ other,
    Equal other (pushed floats entry.2) ↔ Spells entry.2 other)

include values inside

theorem equal_array_iff (array : isArray rawlen entries = true) (other : Value) :
    Equal other (pushed floats (.table rawlen entries)) ↔ Spells (.table rawlen entries) other := by
  rw [pushed, if_pos array, pushedArray_eq]
  have keys : ∀ key, (assignedAt (elements 0
      (entries.map fun entry => pushed floats entry.2)) key).isSome ↔
      ∃ index < entries.length, key = .integer (index + 1) := by
    intro key
    simp only [Option.isSome_iff_exists, assignedAt_array values]
    constructor
    · rintro ⟨_, index, entry, isKey, isEntry, rfl⟩
      exact ⟨index, (List.getElem?_eq_some_iff.mp isEntry).1, isKey⟩
    · rintro ⟨index, upTo, isKey⟩
      exact ⟨_, index, _, isKey, List.getElem?_eq_getElem upTo, rfl⟩
  constructor
  · rintro (_ | _ | _ | _ | _ | ⟨sameKeys, sameValues⟩)
    refine .array array (fun key => (sameKeys key).trans (keys key)) ?_
    intro index entry value isEntry isValue
    exact (inside entry (List.mem_of_getElem? isEntry) value).mp (sameValues _ _ _ isValue
      ((assignedAt_array values).mpr ⟨index, entry, rfl, isEntry, rfl⟩))
  · rintro (_ | _ | _ | _ | ⟨_, sameKeys, sameValues⟩ | ⟨map, -, -⟩)
    · refine .table (fun key => (sameKeys key).trans (keys key).symm) ?_
      intro key value read isValue isRead
      obtain ⟨index, entry, rfl, isEntry, rfl⟩ := (assignedAt_array values).mp isRead
      exact (inside entry (List.mem_of_getElem? isEntry) value).mpr
        (sameValues index entry value isEntry isValue)
    · exact absurd array (by simp [map])

theorem equal_map_iff (map : isArray rawlen entries = false)
    (apart : KeysApart (fun entry => entry.1.key) entries)
    (keys : ∀ entry ∈ entries, (pushed floats entry.1).key = entry.1.key) (other : Value) :
    Equal other (pushed floats (.table rawlen entries)) ↔ Spells (.table rawlen entries) other := by
  have assigned : ∀ key, assignedAt
      (entries.map fun entry => (pushed floats entry.1, pushed floats entry.2)) key =
      (lookup entries key).map (pushed floats) :=
    fun key => assignedAt_map apart keys fun entry member => pushed_ne_nil (values entry member)
  have held : ∀ key stored, lookup entries key = some stored → ∀ other,
      Equal other (pushed floats stored) ↔ Spells stored other := by
    intro key stored isStored other
    obtain ⟨entry, member, -, rfl⟩ := (lookup_eq_some_iff apart).mp isStored
    exact inside entry member other
  rw [pushed, if_neg (by simp [map]), pushedMap_eq]
  constructor
  · rintro (_ | _ | _ | _ | _ | ⟨sameKeys, sameValues⟩)
    refine .map map (fun key => ?_) ?_
    · rw [sameKeys key, assigned, Option.isSome_map]
    · intro key stored value isStored isValue
      exact (held key stored isStored value).mp
        (sameValues key value _ isValue (by rw [assigned, isStored]; rfl))
  · rintro (_ | _ | _ | _ | ⟨array, -, -⟩ | ⟨_, sameKeys, sameValues⟩)
    · exact absurd array (by simp [map])
    · refine .table (fun key => ?_) ?_
      · rw [sameKeys key, assigned, Option.isSome_map]
      · intro key value read isValue isRead
        rw [assigned, Option.map_eq_some_iff] at isRead
        obtain ⟨stored, isStored, rfl⟩ := isRead
        exact (held key stored isStored value).mpr
          (sameValues key stored value isStored isValue)

end Tables

/-- What is read back for a value equals what the value spells. -/
theorem equal_pushed_iff (value other : Value) (stored : value.All Value.IsStored)
    (plain : value.All Value.IsPlain) (short : value.All Value.IsShort) :
    Equal other (pushed floats value) ↔ Spells value other := by
  induction value generalizing other with
  | nil =>
      constructor <;> rintro ⟨⟩
      · exact .nil
      · exact .nil
  | boolean b =>
      constructor <;> rintro ⟨⟩
      · exact .boolean b
      · exact .boolean b
  | integer i =>
      constructor <;> rintro ⟨⟩
      · exact .integer i
      · exact .integer i
  | number bits => exact plain.elim
  | string s =>
      rw [pushed_string short]
      constructor <;> rintro ⟨⟩
      · exact .string s
      · exact .string s
  | table rawlen entries ih =>
      obtain ⟨⟨held, apart, -, -⟩, storedInside⟩ := stored
      obtain ⟨plainKeys, plainInside⟩ := plain
      obtain ⟨-, shortInside⟩ := short
      rw [allEntries_iff] at storedInside plainInside shortInside
      have values : ∀ entry ∈ entries, entry.2 ≠ .nil := fun entry member => (held entry member).2
      have inside : ∀ entry ∈ entries, ∀ other,
          Equal other (pushed floats entry.2) ↔ Spells entry.2 other :=
        fun entry member other => (ih entry member).2 other (storedInside entry member).2
          (plainInside entry member).2 (shortInside entry member).2
      cases array : isArray rawlen entries with
      | true => exact equal_array_iff values inside array other
      | false =>
          exact equal_map_iff values inside array apart (fun entry member =>
            key_pushed (plainKeys entry member) (shortInside entry member).1.here) other

theorem length_of_pushed {value : Value} {s : ByteString}
    (isString : pushed floats value = .string s) : s.length < 2 ^ 32 := by
  cases value with
  | string stored =>
      obtain rfl := Pushed.string.inj isString
      rw [List.length_take]
      exact lt_of_le_of_lt (min_le_left _ _) (Nat.mod_lt _ (by norm_num))
  | nil | boolean | integer | number | table => simp [pushed] at isString

/-- The keys and values of a table that is read back were read back themselves, but
for the keys of an array. -/
theorem pushed_of_mem {rawlen : Nat} {entries : List (Value × Value)}
    {assigned : List (Pushed × Pushed)}
    (isTable : pushed floats (.table rawlen entries) = .table assigned) {entry : Pushed × Pushed}
    (member : entry ∈ assigned) :
    ((∃ i, entry.1 = .integer i) ∨ ∃ key, entry.1 = pushed floats key) ∧
      ∃ value, entry.2 = pushed floats value := by
  rw [pushed] at isTable
  obtain rfl := Pushed.table.inj isTable
  split at member
  next =>
    rw [pushedArray_eq, elements, List.mem_mapIdx] at member
    obtain ⟨index, inside, rfl⟩ := member
    exact ⟨Or.inl ⟨_, rfl⟩, _, List.getElem_map _⟩
  next =>
    rw [pushedMap_eq] at member
    obtain ⟨stored, -, rfl⟩ := List.mem_map.mp member
    exact ⟨Or.inr ⟨_, rfl⟩, _, rfl⟩

/-- No string that is read back is longer than its length field can say. -/
theorem short_of_equal (value other : Value) (stored : value.All Value.IsStored)
    (plain : value.All Value.IsPlain) (equal : Equal value (pushed floats other)) :
    value.All Value.IsShort := by
  induction value generalizing other with
  | nil | boolean | integer | number => trivial
  | string s =>
      generalize isString : pushed floats other = read at equal
      cases equal
      exact length_of_pushed isString
  | table rawlen entries ih =>
      obtain ⟨⟨-, apart, -, -⟩, storedInside⟩ := stored
      obtain ⟨plainKeys, plainInside⟩ := plain
      rw [allEntries_iff] at storedInside plainInside
      refine ⟨trivial, allEntries_iff.mpr fun entry member => ?_⟩
      cases other with
      | table otherRawlen otherEntries =>
          generalize isTable : pushed floats (.table otherRawlen otherEntries) = read at equal
          cases equal with
          | @table _ _ assigned keys values =>
              obtain ⟨key, isKey⟩ := (plainKeys entry member).exists_key
              have held := (lookup_eq_some_iff apart).mpr ⟨entry, member, isKey, rfl⟩
              obtain ⟨read, isRead⟩ :=
                Option.isSome_iff_exists.mp ((keys key).mp (by rw [held]; rfl))
              obtain ⟨readEntry, readMember, readKey, rfl⟩ := mem_of_assignedAt isRead
              obtain ⟨fromKey, readValue, isReadValue⟩ := pushed_of_mem isTable readMember
              constructor
              · have plainKey := plainKeys entry member
                cases isString : entry.1 with
                | string s =>
                    rw [isString] at isKey
                    obtain rfl := Option.some.inj isKey
                    have readString := Pushed.eq_string_of_key readKey
                    rcases fromKey with ⟨i, isInteger⟩ | ⟨storedKey, isPushed⟩
                    · rw [isInteger] at readString
                      exact absurd readString (by simp)
                    · exact length_of_pushed (isPushed.symm.trans readString)
                | integer i => trivial
                | nil | boolean | number | table => rw [isString] at plainKey; exact plainKey.elim
              · have equalValue := values key _ _ held isRead
                rw [isReadValue] at equalValue
                exact (ih entry member).2 readValue (storedInside entry member).2
                  (plainInside entry member).2 equalValue
      | nil | boolean | integer | number | string => cases equal

end Pushed

/-- A table that counts as an array is visited in the order of its keys, from 1 on. -/
def InOrder : Value → Prop
  | .table rawlen entries => isArray rawlen entries = true →
      ∀ (index : Nat) entry, entries[index]? = some entry → entry.1 = .integer (index + 1)
  | _ => True

/-- A value whose arrays are visited in order spells itself. -/
theorem spells_self (value : Value) (stored : value.All Value.IsStored)
    (plain : value.All Value.IsPlain) (inOrder : value.All InOrder) : Spells value value := by
  induction value with
  | nil => exact .nil
  | boolean b => exact .boolean b
  | integer i => exact .integer i
  | number bits => exact plain.elim
  | string s => exact .string s
  | table rawlen entries ih =>
      obtain ⟨⟨-, apart, -, -⟩, storedInside⟩ := stored
      obtain ⟨-, plainInside⟩ := plain
      obtain ⟨ordered, inOrderInside⟩ := inOrder
      rw [allEntries_iff] at storedInside plainInside inOrderInside
      have inside : ∀ entry ∈ entries, Spells entry.2 entry.2 := fun entry member =>
        (ih entry member).2 (storedInside entry member).2 (plainInside entry member).2
          (inOrderInside entry member).2
      cases array : isArray rawlen entries with
      | true =>
          have keyAt := ordered array
          refine .array array (fun key => ?_) ?_
          · simp only [Option.isSome_iff_exists, lookup_eq_some_iff apart]
            constructor
            · rintro ⟨_, entry, member, isKey, rfl⟩
              obtain ⟨index, isEntry⟩ := List.getElem?_of_mem member
              refine ⟨index, (List.getElem?_eq_some_iff.mp isEntry).1, ?_⟩
              rw [keyAt index entry isEntry] at isKey
              exact (Option.some.inj isKey).symm
            · rintro ⟨index, upTo, rfl⟩
              have isEntry := List.getElem?_eq_getElem upTo
              exact ⟨_, _, List.getElem_mem upTo, by rw [keyAt index _ isEntry]; rfl, rfl⟩
          · intro index entry value isEntry isValue
            have member := List.mem_of_getElem? isEntry
            have held := (lookup_eq_some_iff apart).mpr
              ⟨entry, member, by rw [keyAt index entry isEntry]; rfl, rfl⟩
            obtain rfl := Option.some.inj (held.symm.trans isValue)
            exact inside entry member
      | false =>
          refine .map array (fun key => Iff.rfl) ?_
          intro key stored value isStored isValue
          obtain rfl := Option.some.inj (isStored.symm.trans isValue)
          obtain ⟨entry, member, -, rfl⟩ := (lookup_eq_some_iff apart).mp isStored
          exact inside entry member

section Depth

variable {floats : Floats} {dep bound : Nat} {entries : List (Value × Value)}
  {pack after : Pack}

theorem slotsOfArray_le (each : ∀ entry ∈ entries, slots isArray entry.2 ≤ bound) :
    slotsOfArray isArray entries ≤ bound := by
  induction entries with
  | nil => exact Nat.zero_le bound
  | cons entry entries ih =>
      exact max_le (each entry List.mem_cons_self)
        (ih fun other member => each other (List.mem_cons_of_mem entry member))

theorem slotsOfMap_le
    (each : ∀ entry ∈ entries, slots isArray entry.1 ≤ bound ∧ slots isArray entry.2 < bound) :
    slotsOfMap isArray entries ≤ bound := by
  induction entries with
  | nil => exact Nat.zero_le bound
  | cons entry entries ih =>
      obtain ⟨key, value⟩ := each entry List.mem_cons_self
      exact max_le (max_le key value)
        (ih fun other member => each other (List.mem_cons_of_mem entry member))

theorem exists_of_encodeArray (done : Encode.encodeArray floats dep entries pack = .ok after) :
    ∀ entry ∈ entries, ∃ pack after, Encode.encode floats dep entry.2 pack = .ok after := by
  induction entries generalizing pack with
  | nil => simp
  | cons entry entries ih =>
      obtain ⟨middle, isMiddle, isAfter⟩ := exists_of_bind done
      rw [List.forall_mem_cons]
      exact ⟨⟨pack, middle, isMiddle⟩, ih isAfter⟩

theorem exists_of_encodeMap (done : Encode.encodeMap floats dep entries pack = .ok after) :
    ∀ entry ∈ entries, (∃ pack after, Encode.encode floats dep entry.1 pack = .ok after) ∧
      ∃ pack after, Encode.encode floats dep entry.2 pack = .ok after := by
  induction entries generalizing pack with
  | nil => simp
  | cons entry entries ih =>
      obtain ⟨middle, isMiddle, others⟩ := exists_of_bind done
      obtain ⟨later, isLater, isAfter⟩ := exists_of_bind others
      rw [List.forall_mem_cons]
      exact ⟨⟨⟨pack, middle, isMiddle⟩, middle, later, isLater⟩, ih isAfter⟩

/-- Every open table takes two slots at most, its own and that of a key. -/
theorem slots_le_of_encode (value : Value) (deep : dep ≤ 10)
    (done : Encode.encode floats dep value pack = .ok after) :
    slots isArray value + 2 * dep ≤ 21 := by
  induction value generalizing dep pack after with
  | nil | boolean | integer | number | string => simp only [slots]; omega
  | table rawlen entries ih =>
      rw [Encode.encode] at done
      split at done
      next => exact absurd done (by simp)
      next inside =>
        have deeper : dep + 1 ≤ 10 := Nat.not_lt.mp inside
        rw [slots]
        split at done
        next array =>
          obtain ⟨middle, -, isAfter⟩ := exists_of_bind done
          have most : slotsOfArray isArray entries ≤ 21 - 2 * (dep + 1) := by
            refine slotsOfArray_le fun entry member => ?_
            obtain ⟨_, _, isDone⟩ := exists_of_encodeArray isAfter entry member
            have upTo := (ih entry member).2 deeper isDone
            omega
          rw [if_pos array]
          omega
        next notArray =>
          obtain ⟨middle, -, isAfter⟩ := exists_of_bind done
          have most : slotsOfMap isArray entries ≤ 21 - 2 * (dep + 1) + 1 := by
            refine slotsOfMap_le fun entry member => ?_
            obtain ⟨⟨_, _, isKey⟩, _, _, isValue⟩ := exists_of_encodeMap isAfter entry member
            have keyUpTo := (ih entry member).1 deeper isKey
            have valueUpTo := (ih entry member).2 deeper isValue
            omega
          rw [if_neg notArray]
          omega

/-- What the encoder writes is decoded on a stack of 21 slots as on one that never ends:
no more than ten tables are open. -/
theorem decodeStringOn_encoded {bufflen : Fin (2 ^ 31)} {value : Value} {encoded : ByteString}
    (stored : value.All Value.IsStored) (returned : encodeValue floats bufflen value = some encoded)
    (behind : Nat → Byte) :
    decodeStringOn (· < 21) floats ⟨encoded, behind⟩ = decodeString floats ⟨encoded, behind⟩ := by
  have decodes := @decodes_wire floats value stored
  rw [← (encodeValue_eq_some returned).1] at decodes
  have fits : slots isArray value ≤ 21 := by
    rw [encodeValue] at returned
    cases done : Encode.encode floats 0 value ⟨bufflen, [], false⟩ with
    | error failure => simp [done] at returned
    | ok pack => exact slots_le_of_encode value (Nat.zero_le 10) done
  rw [decodes.decodeString_eq, (decodes.decodeStringOn_iff _ behind).1 (hasRoom_limit.mpr fits)]

end Depth

/-- A value survives encoding and decoding exactly when its strings are short and it
spells itself. -/
theorem roundTrips_iff (floats : Floats) (bufflen : Fin (2 ^ 31)) (value : Value)
    (stored : value.All Value.IsStored) (plain : value.All Value.IsPlain)
    (encodes : (encodeValue floats bufflen value).isSome) :
    RoundTrips floats bufflen value ↔ value.All Value.IsShort ∧ Spells value value := by
  obtain ⟨encoded, returned⟩ := Option.isSome_iff_exists.mp encodes
  obtain ⟨rfl, -⟩ := encodeValue_eq_some returned
  have decodes := @decodes_wire floats value stored
  constructor
  · intro roundTrips
    obtain ⟨read, ps, isRead, equal⟩ := roundTrips _ returned fun _ => 0
    rw [decodes.decodeString_eq] at isRead
    obtain ⟨rfl, -⟩ := Decoded.returned.inj isRead
    have short := short_of_equal value value stored plain equal
    exact ⟨short, (equal_pushed_iff value value stored plain short).mp equal⟩
  · rintro ⟨short, spells⟩ encoded isEncoded behind
    obtain rfl := Option.some.inj (returned.symm.trans isEncoded)
    exact ⟨_, _, decodes.decodeString_eq behind,
      (equal_pushed_iff value value stored plain short).mpr spells⟩

/-- An array of two elements, one of them a map of two entries, beside a map. -/
def sample : Value :=
  .table 0 [(.string [107], .table 2 [(.integer 1, .integer (-70000)),
      (.integer 2, .table 0 [(.string [97], .boolean true), (.integer 7, .string [98, 99])])]),
    (.integer (-3), .table 0 [])]

theorem sample_stored : sample.All Value.IsStored := by
  simp [sample, Value.All, AllEntries, Value.IsStored, Value.IsKey, IsBorder, KeysApart, lookup,
    Value.key]

theorem sample_inOrder : sample.All InOrder := by
  have pair : ∀ first second : Value,
      InOrder (.table 2 [(.integer 1, first), (.integer 2, second)]) := by
    intro first second _ index entry isEntry
    match index with
    | 0 => rw [← Option.some.inj isEntry]; rfl
    | 1 => rw [← Option.some.inj isEntry]; rfl
    | index + 2 => simp at isEntry
  have map : ∀ entries, isArray 0 entries = false → InOrder (.table 0 entries) :=
    fun entries notArray array => absurd (notArray.symm.trans array) (by simp)
  have none : InOrder (.table 0 []) := fun _ index entry isEntry => by simp at isEntry
  exact ⟨map _ (by decide), trivial, ⟨pair _ _, trivial, trivial, trivial,
    ⟨map _ (by decide), trivial, trivial, trivial, trivial, trivial⟩, trivial⟩,
    trivial, ⟨none, trivial⟩, trivial⟩

theorem roundTrips_nested :
    sample.All Value.IsStored ∧
      RoundTrips ⟨fun bits => bits % 2 ^ 32, id, fun bits => Nat.mod_lt bits (Nat.two_pow_pos 32)⟩
        64 sample := by
  have plain : sample.All Value.IsPlain := by
    simp [sample, Value.All, AllEntries, Value.IsPlain, Value.IsPlainKey]
  refine ⟨sample_stored, (roundTrips_iff _ 64 _ sample_stored plain (by decide +kernel)).mpr
    ⟨?_, spells_self _ sample_stored plain sample_inOrder⟩⟩
  simp [sample, Value.All, AllEntries, Value.IsShort]

/-- A table both of whose elements are in the hash part, the second one first. -/
theorem not_roundTrips_hashed :
    ¬ ∀ floats bufflen value, value.All Value.IsStored → value.All Value.IsPlain →
      RoundTrips floats bufflen value := by
  intro always
  have stored : (Value.table 2 [(.integer 2, .string [98]), (.integer 1, .string [97])]).All
      Value.IsStored := by
    simp [Value.All, AllEntries, Value.IsStored, Value.IsKey, IsBorder, KeysApart, lookup,
      Value.key]
  have plain : (Value.table 2 [(.integer 2, .string [98]), (.integer 1, .string [97])]).All
      Value.IsPlain := by
    simp [Value.All, AllEntries, Value.IsPlain, Value.IsPlainKey]
  let floats : Floats :=
    ⟨fun bits => bits % 2 ^ 32, id, fun bits => Nat.mod_lt bits (Nat.two_pow_pos 32)⟩
  obtain ⟨read, ps, isRead, equal⟩ := always floats 64 _ stored plain
    [0x92, 0xa1, 98, 0xa1, 97] rfl fun _ => 0
  have decoded := (@decodes_wire floats _ stored).decodeString_eq fun _ => 0
  obtain ⟨rfl, -⟩ := Decoded.returned.inj (decoded.symm.trans isRead)
  cases equal with
  | table keys values => cases values (.integer 1) _ _ rfl rfl

end Msgpack

end LuaServer
