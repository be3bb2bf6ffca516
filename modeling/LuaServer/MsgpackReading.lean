import LuaServer.MsgpackBounds
import LuaServer.MsgpackEncoding

/-!
# Reading MessagePack back

Every head the encoders write is parsed as the token it was written for, and
takes exactly its own bytes.
-/

namespace LuaServer

namespace Msgpack

open MachineIntegers Lua

/-- The double that is read for one that was written. -/
def pushedDouble (floats : Floats) (val : Nat) : Nat :=
  if sameDouble (floats.widen (floats.narrow val)) val then floats.widen (floats.narrow val)
  else val

mutual

/-- What the decoder pushes for the wire form of a value. -/
def pushed (floats : Floats) : Value → Pushed
  | .nil => .nil
  | .boolean val => .boolean val
  | .integer num => .integer num
  | .number num => .number (pushedDouble floats num)
  | .string s => .string (s.take (s.length % 2 ^ 32))
  | .table rawlen entries =>
      .table (if isArray rawlen entries then pushedArray floats 0 entries
        else pushedMap floats entries)

/-- The values in turn, behind the first `index` elements of an array. -/
def pushedArray (floats : Floats) : Nat → List (Value × Value) → List (Pushed × Pushed)
  | _, [] => []
  | index, (_, value) :: rest =>
      (.integer (index + 1), pushed floats value) :: pushedArray floats (index + 1) rest

def pushedMap (floats : Floats) : List (Value × Value) → List (Pushed × Pushed)
  | [] => []
  | (key, value) :: rest => (pushed floats key, pushed floats value) :: pushedMap floats rest

end

mutual

/-- The slots of the Lua stack that a value needs to be decoded, when the encoder takes
some of its tables for arrays: an element lies above its table, and a value above
its table and its key. -/
def slots (asArray : Nat → List (Value × Value) → Bool) : Value → Nat
  | .nil => 1
  | .boolean _ => 1
  | .integer _ => 1
  | .number _ => 1
  | .string _ => 1
  | .table rawlen entries =>
      (if asArray rawlen entries then slotsOfArray asArray entries
        else slotsOfMap asArray entries) + 1

def slotsOfArray (asArray : Nat → List (Value × Value) → Bool) : List (Value × Value) → Nat
  | [] => 0
  | (_, value) :: rest => max (slots asArray value) (slotsOfArray asArray rest)

def slotsOfMap (asArray : Nat → List (Value × Value) → Bool) : List (Value × Value) → Nat
  | [] => 0
  | (key, value) :: rest =>
      max (max (slots asArray key) (slots asArray value + 1)) (slotsOfMap asArray rest)

end

section Headers

variable (floats : Floats) {m : Nat}

theorem header_positive (upper : m ≤ 0x7f) : header floats m = (0, fun _ => .val (.INT m)) :=
  if_pos upper

theorem header_negative (lower : 0xe0 ≤ m) :
    header floats m = (0, fun _ => .val (.INT (-32 + m - 0xe0))) := by
  unfold header
  rw [if_neg (by omega), if_pos lower]

theorem header_string (lower : 0xa0 ≤ m) (upper : m ≤ 0xbf) :
    header floats m = (0, fun _ => .content (m - 0xa0)) := by
  unfold header
  rw [if_neg (by omega), if_neg (by omega), if_pos ⟨lower, upper⟩]

theorem header_map (lower : 0x80 ≤ m) (upper : m ≤ 0x8f) :
    header floats m = (0, fun _ => .val (.MAP (m - 0x80))) := by
  unfold header
  rw [if_neg (by omega), if_neg (by omega), if_neg (by omega), if_pos ⟨lower, upper⟩]

theorem header_array (lower : 0x90 ≤ m) (upper : m ≤ 0x9f) :
    header floats m = (0, fun _ => .val (.ARR (m - 0x90))) := by
  unfold header
  rw [if_neg (by omega), if_neg (by omega), if_neg (by omega), if_neg (by omega),
    if_pos ⟨lower, upper⟩]

end Headers

section Tokens

variable {floats : Floats} {m : Byte} {size : Nat} {meaning : Nat → Header}
  {field : ByteString}

theorem parseWithin_val {val : Val} (isHeader : header floats m = (size, meaning))
    (length : field.length = size) (isVal : meaning (fieldValue field) = .val val)
    (rest : ByteString) :
    parseWithin floats (some (m :: (field ++ rest))) = (val, some rest) := by
  subst length
  have enough : ¬ (field ++ rest).length < field.length := by simp
  simp only [parseWithin, isHeader, if_neg enough, List.take_left', List.drop_left', isVal]

theorem parseWithin_content {s : ByteString} (isHeader : header floats m = (size, meaning))
    (length : field.length = size) (isContent : meaning (fieldValue field) = .content s.length)
    (rest : ByteString) :
    parseWithin floats (some (m :: (field ++ (s ++ rest)))) = (.STR s, some rest) := by
  subst length
  have enough : ¬ (field ++ (s ++ rest)).length < field.length := by simp
  have content : ¬ (s ++ rest).length < s.length := by simp
  simp only [parseWithin, isHeader, if_neg enough, List.take_left', List.drop_left', isContent,
    if_neg content]

theorem exists_bytesOf_one (value : Int) :
    ∃ byte : Byte, bytesOf 1 value = [byte] ∧ (byte.val : Int) = value % 256 := by
  refine ⟨Fin.ofNat 256 (toUnsigned (8 * 1) value).toNat, rfl, ?_⟩
  have notNegative : 0 ≤ value % 256 := Int.emod_nonneg value (by norm_num)
  have small : value % 256 < 256 := Int.emod_lt_of_pos value (by norm_num)
  simp only [Fin.val_ofNat, toUnsigned]
  norm_num
  omega

theorem endianChange_bytesOf_one (value : Int) :
    endianChange (bytesOf 1 value) = bytesOf 1 value :=
  rfl

/-- A number in big endian order is read back modulo its width. -/
theorem fieldValue_endianChange (size : Nat) (value : Int) :
    (fieldValue (endianChange (bytesOf size value)) : Int) = toUnsigned (8 * size) value := by
  have positive : (0 : Int) < 2 ^ (8 * size) := by positivity
  have notNegative : 0 ≤ toUnsigned (8 * size) value := Int.emod_nonneg _ positive.ne'
  have small : toUnsigned (8 * size) value < 2 ^ (8 * size) := Int.emod_lt_of_pos _ positive
  have power : (256 ^ size : Nat) = 2 ^ (8 * size) := by
    rw [pow_mul]
    norm_num
  have fits : (toUnsigned (8 * size) value).toNat < 256 ^ size := by
    rw [power]
    have cast : ((2 ^ (8 * size) : Nat) : Int) = 2 ^ (8 * size) := by push_cast; rfl
    omega
  rw [fieldValue, endianChange, endianChange, List.reverse_reverse, bytesOf,
    LittleEndian.ofInt, LittleEndian.toNat_ofNat_of_lt fits, Int.toNat_of_nonneg notNegative]

theorem fieldValue_of_range {size : Nat} {value : Int} (lower : 0 ≤ value)
    (upper : value < 2 ^ (8 * size)) :
    (fieldValue (endianChange (bytesOf size value)) : Int) = value := by
  rw [fieldValue_endianChange, toUnsigned, Int.emod_eq_of_lt lower upper]

theorem fieldValue_natCast {size value : Nat} (fits : value < 2 ^ (8 * size)) :
    fieldValue (endianChange (bytesOf size value)) = value := by
  have same := fieldValue_of_range (Int.natCast_nonneg value)
    (by exact_mod_cast fits : (value : Int) < 2 ^ (8 * size))
  exact Int.ofNat_inj.mp same

/-- A number in two's complement is read back when it fits. -/
theorem toSigned_fieldValue {size : Nat} {value : Int} (lower : -2 ^ (8 * size) ≤ 2 * value)
    (upper : 2 * value < 2 ^ (8 * size)) :
    toSigned (8 * size) (fieldValue (endianChange (bytesOf size value))) = value := by
  have same := LittleEndian.toInt_ofInt lower upper
  rw [LittleEndian.toInt, LittleEndian.length_ofInt] at same
  rw [fieldValue, endianChange, endianChange, List.reverse_reverse]
  exact same

theorem parseWithin_field (size : Nat) {meaning : Nat → Header} {value : Int} {val : Val}
    (isHeader : header floats m = (size, meaning))
    (isVal : meaning (fieldValue (endianChange (bytesOf size value))) = .val val)
    (rest : ByteString) :
    parseWithin floats (some ([[m], endianChange (bytesOf size value)].flatten ++ rest)) =
      (val, some rest) := by
  simpa using parseWithin_val isHeader (by simp) isVal rest

theorem parseWithin_unsigned (size : Nat) {val : Int}
    (isHeader : header floats m = (size, fun v => .val (.INT v))) (notNegative : 0 ≤ val)
    (fits : val < 2 ^ (8 * size)) (rest : ByteString) :
    parseWithin floats (some ([[m], endianChange (bytesOf size val)].flatten ++ rest)) =
      (.INT val, some rest) :=
  parseWithin_field size isHeader (by rw [fieldValue_of_range notNegative fits]) rest

theorem parseWithin_signed (size : Nat) {val : Int}
    (isHeader : header floats m = (size, fun v => .val (.INT (toSigned (8 * size) v))))
    (lower : -2 ^ (8 * size) ≤ 2 * val) (upper : 2 * val < 2 ^ (8 * size)) (rest : ByteString) :
    parseWithin floats (some ([[m], endianChange (bytesOf size val)].flatten ++ rest)) =
      (.INT val, some rest) :=
  parseWithin_field size isHeader (by rw [toSigned_fieldValue lower upper]) rest

theorem parse_integer {val : Int} (lower : -2 ^ 63 ≤ val) (upper : val < 2 ^ 63)
    (rest : ByteString) :
    parseWithin floats (some ((integerWrites val).flatten ++ rest)) = (.INT val, some rest) := by
  rw [integerWrites]
  split
  next notNegative =>
    split
    next small =>
      obtain ⟨byte, isByte, value⟩ := exists_bytesOf_one val
      rw [Int.emod_eq_of_lt notNegative (by omega)] at value
      rw [isByte]
      exact parseWithin_val (header_positive floats (by omega)) List.length_nil
        (by rw [value]) rest
    next =>
      split
      next => exact parseWithin_unsigned 1 rfl notNegative (by omega) rest
      next =>
        split
        next => exact parseWithin_unsigned 2 rfl notNegative (by omega) rest
        next =>
          split
          next => exact parseWithin_unsigned 4 rfl notNegative (by omega) rest
          next => exact parseWithin_signed 8 rfl (by omega) (by omega) rest
  next negative =>
    split
    next =>
      obtain ⟨byte, isByte, value⟩ := exists_bytesOf_one (0xe0 + val + 32)
      rw [Int.emod_eq_of_lt (by omega) (by omega)] at value
      have same : -32 + (byte.val : Int) - 0xe0 = val := by omega
      rw [isByte]
      exact parseWithin_val (header_negative floats (by omega)) List.length_nil
        (by rw [same]) rest
    next =>
      split
      next => exact parseWithin_signed 1 rfl (by omega) (by omega) rest
      next =>
        split
        next => exact parseWithin_signed 2 rfl (by omega) (by omega) rest
        next =>
          split
          next => exact parseWithin_signed 4 rfl (by omega) (by omega) rest
          next => exact parseWithin_signed 8 rfl (by omega) (by omega) rest

theorem parseWithin_string (size : Nat) {s : ByteString}
    (isHeader : header floats m = (size, .content)) (fits : s.length < 2 ^ (8 * size))
    (rest : ByteString) :
    parseWithin floats
        (some ([[m], endianChange (bytesOf size s.length)].flatten ++ (s ++ rest))) =
      (.STR s, some rest) := by
  simpa using parseWithin_content isHeader (by simp)
    (congrArg Header.content (fieldValue_natCast fits)) rest

theorem parse_double {val : Nat} (upper : val < 2 ^ 64) (rest : ByteString) :
    parseWithin floats (some ((doubleWrites floats val).flatten ++ rest)) =
      (.DOU (pushedDouble floats val), some rest) := by
  rw [doubleWrites, pushedDouble]
  split
  next =>
    have stored := @fieldValue_natCast 4 _ (floats.narrow_lt val)
    exact parseWithin_field 4 rfl (by rw [stored]) rest
  next =>
    have stored := @fieldValue_natCast 8 _ upper
    exact parseWithin_field 8 rfl (by rw [stored]) rest

theorem not_isNaN_pushedDouble {val : Nat} (number : isNaN val = false) :
    isNaN (pushedDouble floats val) = false := by
  rw [pushedDouble]
  split
  next same =>
    simp only [sameDouble, Bool.and_eq_true, Bool.not_eq_true'] at same
    exact same.1.1
  next => exact number

theorem parse_string {s : ByteString} (short : s.length < 2 ^ 32) (rest : ByteString) :
    parseWithin floats (some ((stringWrites s.length).flatten ++ (s ++ rest))) =
      (.STR s, some rest) := by
  rw [stringWrites]
  split
  next =>
    obtain ⟨byte, isByte, value⟩ := exists_bytesOf_one (0xa0 + s.length)
    rw [Int.emod_eq_of_lt (by omega) (by omega)] at value
    have same : byte.val - 0xa0 = s.length := by omega
    rw [isByte]
    exact parseWithin_content (header_string floats (by omega) (by omega)) List.length_nil
      (by rw [same]) rest
  next =>
    split
    next fits => exact parseWithin_string 1 rfl fits rest
    next =>
      split
      next fits => exact parseWithin_string 2 rfl fits rest
      next => exact parseWithin_string 4 rfl short rest

theorem parse_head {fix : Nat} {two four : Byte} {token : Nat → Val}
    (isFix : ∀ m, fix ≤ m → m ≤ fix + 15 → header floats m = (0, fun _ => .val (token (m - fix))))
    (isTwo : header floats two = (2, fun len => .val (token len)))
    (isFour : header floats four = (4, fun len => .val (token len))) (fixSmall : fix ≤ 240)
    {len : Nat} (small : len < 2 ^ 32) (rest : ByteString) :
    parseWithin floats (some ((headWrites fix two four len).flatten ++ rest)) =
      (token len, some rest) := by
  rw [headWrites]
  split
  next =>
    obtain ⟨byte, isByte, value⟩ := exists_bytesOf_one (fix + len)
    rw [Int.emod_eq_of_lt (by omega) (by omega)] at value
    have same : byte.val - fix = len := by omega
    rw [isByte]
    exact parseWithin_val (isFix byte (by omega) (by omega)) List.length_nil (by rw [same]) rest
  next =>
    split
    next fits => exact parseWithin_field 2 isTwo (by rw [fieldValue_natCast fits]) rest
    next => exact parseWithin_field 4 isFour (by rw [fieldValue_natCast small]) rest

theorem parse_array {len : Nat} (small : len < 2 ^ 32) (rest : ByteString) :
    parseWithin floats (some ((headWrites 0x90 0xdc 0xdd len).flatten ++ rest)) =
      (.ARR len, some rest) :=
  parse_head (fun _ lower upper => header_array floats lower upper) rfl rfl (by norm_num) small rest

theorem parse_map {len : Nat} (small : len < 2 ^ 32) (rest : ByteString) :
    parseWithin floats (some ((headWrites 0x80 0xde 0xdf len).flatten ++ rest)) =
      (.MAP len, some rest) :=
  parse_head (fun _ lower upper => header_map floats lower upper) rfl rfl (by norm_num) small rest

end Tokens

section Rules

variable {floats : Floats}

/-- The Lua stack has so many slots from a height on. -/
def HasRoom (room : Nat → Bool) (height need : Nat) : Prop :=
  ∀ above < need, room (height + above)

section Room

variable {room : Nat → Bool} {height need : Nat}

@[simp]
theorem hasRoom_zero : HasRoom room height 0 := by
  simp [HasRoom]

theorem hasRoom_succ : HasRoom room height (need + 1) ↔
    room height ∧ HasRoom room (height + 1) need := by
  simp only [HasRoom, Nat.forall_lt_succ_left, Nat.add_zero, add_assoc, add_comm 1]

theorem hasRoom_max {other : Nat} : HasRoom room height (max need other) ↔
    HasRoom room height need ∧ HasRoom room height other := by
  simp only [HasRoom, lt_max_iff, or_imp, forall_and]

theorem hasRoom_limit {slots : Nat} : HasRoom (· < slots) 0 need ↔ need ≤ slots := by
  simp only [HasRoom, decide_eq_true_eq, Nat.zero_add]
  exact ⟨fun all => not_lt.mp fun less => lt_irrefl slots (all slots less),
    fun upTo above less => lt_of_lt_of_le less upTo⟩

end Room

/-- A run returns the value when there is enough room, and overruns the stack inside
the bytes when there is not. -/
structure EndsBy (enough : Prop) (value : Pushed) (rest : ByteString)
    (decoded : Decoded (Option ByteString)) : Prop where
  returns : enough → decoded = .returned value (some rest)
  overruns : ¬ enough → ∃ left, decoded = .overrun (some left)

namespace EndsBy

variable {enough more : Prop} {value result : Pushed} {rest behind : ByteString}
  {decoded : Decoded (Option ByteString)}

theorem congr (ends : EndsBy enough value rest decoded) (same : more ↔ enough) :
    EndsBy more value rest decoded :=
  ⟨fun has => ends.returns (same.mp has), fun lacks => ends.overruns fun has =>
    lacks (same.mpr has)⟩

theorem push (room : Nat → Bool) (height : Nat) (ends : EndsBy enough value rest decoded) :
    EndsBy (room height ∧ enough) value rest (push room height (some behind) decoded) := by
  rw [Msgpack.push]
  by_cases free : room height
  · rw [if_pos free]
    exact ends.congr (and_iff_right free)
  · rw [if_neg free]
    exact ⟨fun has => absurd has.1 free, fun _ => ⟨behind, rfl⟩⟩

theorem andThen {next : Pushed → Option ByteString → Decoded (Option ByteString)}
    (ends : EndsBy enough value rest decoded)
    (later : EndsBy more result behind (next value (some rest))) :
    EndsBy (enough ∧ more) result behind (decoded.andThen next) := by
  by_cases has : enough
  · rw [ends.returns has]
    exact later.congr (and_iff_right has)
  · obtain ⟨left, stopped⟩ := ends.overruns has
    rw [stopped]
    exact ⟨fun both => absurd both.1 has, fun _ => ⟨left, rfl⟩⟩

end EndsBy

/-- The bytes are decoded to the value wherever they stand, nothing behind them is
taken, and so many slots of the Lua stack are needed. -/
structure Decodes (floats : Floats) (bytes : ByteString) (value : Pushed) (need : Nat) :
    Prop where
  notEmpty : 1 ≤ bytes.length
  needs : 1 ≤ need
  decoded : ∀ room fuel height rest, 2 * bytes.length ≤ fuel →
    EndsBy (HasRoom room height need) value rest
      (decode room (parseWithin floats) fuel height (some (bytes ++ rest)))

/-- The value of a token that is one by itself. -/
def Val.single : Val → Option Pushed
  | .NIL => some .nil
  | .BOOL b => some (.boolean b)
  | .INT i => some (.integer i)
  | .DOU bits => some (.number bits)
  | .STR s => some (.string s)
  | .ARR _ | .MAP _ | .ERR => none

theorem one_le_length_of_parsed {head : ByteString} {val : Val} (isToken : val ≠ .ERR)
    (parsed : parseWithin floats (some head) = (val, some [])) : 1 ≤ head.length := by
  by_contra empty
  obtain rfl : head = [] := List.eq_nil_of_length_eq_zero (by omega)
  exact isToken (congrArg Prod.fst parsed).symm

theorem decodes_single {bytes : ByteString} {val : Val} {value : Pushed}
    (isSingle : val.single = some value)
    (parsed : ∀ rest, parseWithin floats (some (bytes ++ rest)) = (val, some rest)) :
    Decodes floats bytes value 1 := by
  have notEmpty : 1 ≤ bytes.length := by
    refine @one_le_length_of_parsed floats _ val ?_ (by simpa using parsed [])
    rintro rfl
    simp [Val.single] at isSingle
  refine ⟨notEmpty, le_rfl, fun room fuel height rest enough => ?_⟩
  obtain ⟨fuel, rfl⟩ : ∃ less, fuel = less + 1 := ⟨fuel - 1, by omega⟩
  have pushes : decode room (parseWithin floats) (fuel + 1) height (some (bytes ++ rest)) =
      push room height (some rest) (.returned value (some rest)) := by
    rw [decode, parsed rest]
    cases val <;> simp_all [Val.single]
  rw [pushes]
  refine EndsBy.congr (EndsBy.push room height ⟨fun _ => rfl, fun lacks => ?_⟩) hasRoom_succ
  exact absurd hasRoom_zero lacks

/-- The elements of an array behind those that are there. -/
def elements (index : Nat) (values : List Pushed) : List (Pushed × Pushed) :=
  values.mapIdx fun offset value => (.integer (index + offset + 1 : Nat), value)

theorem elements_cons (index : Nat) (value : Pushed) (values : List Pushed) :
    elements index (value :: values) =
      (.integer (index + 1), value) :: elements (index + 1) values := by
  simp [elements, add_assoc, add_comm 1]

/-- An array holds its elements under the integers from 1 on. -/
theorem assignedAt_elements {values : List Pushed} (notNil : ∀ value ∈ values, value ≠ .nil)
    {key : Key} {value : Pushed} :
    assignedAt (elements 0 values) key = some value ↔
      ∃ index : Nat, key = .integer (index + 1) ∧ values[index]? = some value := by
  have apart : KeysApart (fun entry : Pushed × Pushed => entry.1.key) (elements 0 values) := by
    refine List.pairwise_iff_getElem.mpr fun first second _ _ less k => ?_
    simp only [elements, List.getElem_mapIdx, Pushed.key, Option.some.injEq]
    rintro rfl
    simp only [ne_eq, Option.some.injEq, Key.integer.injEq]
    omega
  rw [assignedAt_eq_some_iff apart]
  · simp only [elements, List.mem_mapIdx, List.getElem?_eq_some_iff]
    constructor
    · rintro ⟨_, ⟨index, inside, rfl⟩, isKey, rfl⟩
      refine ⟨index, ?_, inside, rfl⟩
      simpa [Pushed.key] using isKey.symm
    · rintro ⟨index, rfl, inside, rfl⟩
      exact ⟨_, ⟨index, inside, rfl⟩, by simp [Pushed.key], rfl⟩
  · simp only [elements, List.mem_mapIdx]
    rintro _ ⟨index, inside, rfl⟩
    exact notNil _ (List.getElem_mem inside)

/-- The slots that the elements of an array need, one after the other. -/
def mostOf (held : List (Pushed × Nat)) : Nat :=
  held.foldr (fun element most => max element.2 most) 0

theorem decodeArray_elements {chunks : List ByteString} {held : List (Pushed × Nat)}
    (each : List.Forall₂
      (fun chunk element => Decodes floats chunk element.1 element.2) chunks held)
    (room : Nat → Bool) (assigned : List (Pushed × Pushed)) (fuel height : Nat)
    (rest : ByteString) (enough : 2 * chunks.flatten.length < fuel) :
    EndsBy (HasRoom room height (mostOf held))
      (.table (assigned ++ elements assigned.length (held.map Prod.fst))) rest
      (decodeArray room (parseWithin floats) fuel height held.length assigned
        (some (chunks.flatten ++ rest))) := by
  induction each generalizing assigned fuel with
  | nil =>
      obtain ⟨fuel, rfl⟩ : ∃ less, fuel = less + 1 := ⟨fuel - 1, by omega⟩
      simp only [mostOf, List.foldr_nil, List.length_nil, decodeArray]
      exact ⟨fun _ => by simp [elements], fun lacks => absurd hasRoom_zero lacks⟩
  | @cons chunk element chunks held first others ih =>
      obtain ⟨fuel, rfl⟩ : ∃ less, fuel = less + 1 := ⟨fuel - 1, by omega⟩
      have positive := first.notEmpty
      rw [List.flatten_cons, List.length_append] at enough
      have ending := ih (assigned ++ [(.integer (assigned.length + 1), element.1)]) fuel
        (by omega)
      have same : HasRoom room height (mostOf (element :: held)) ↔
          HasRoom room height element.2 ∧ HasRoom room height (mostOf held) := hasRoom_max
      rw [List.length_cons, decodeArray, List.flatten_cons, List.append_assoc]
      refine EndsBy.congr ((first.decoded room fuel height _ (by omega)).andThen ?_) same
      rw [List.map_cons, elements_cons]
      simpa using ending

/-- The pairs of a map are decoded, and their keys may be assigned. -/
def DecodesEntry (floats : Floats) (chunk : ByteString × ByteString)
    (entry : (Pushed × Nat) × (Pushed × Nat)) : Prop :=
  Decodes floats chunk.1 entry.1.1 entry.1.2 ∧ Decodes floats chunk.2 entry.2.1 entry.2.2 ∧
    keyError entry.1.1 = none

/-- The slots that the pairs of a map need: a value lies above its key. -/
def mostOfPairs (held : List ((Pushed × Nat) × (Pushed × Nat))) : Nat :=
  held.foldr (fun entry most => max (max entry.1.2 (entry.2.2 + 1)) most) 0

/-- The bytes of the keys and values in turn. -/
def joined (chunks : List (ByteString × ByteString)) : ByteString :=
  (chunks.map fun chunk => chunk.1 ++ chunk.2).flatten

theorem decodeMap_entries {chunks : List (ByteString × ByteString)}
    {held : List ((Pushed × Nat) × (Pushed × Nat))}
    (each : List.Forall₂ (DecodesEntry floats) chunks held) (room : Nat → Bool)
    (assigned : List (Pushed × Pushed)) (fuel height : Nat) (rest : ByteString)
    (enough : 2 * (joined chunks).length < fuel) :
    EndsBy (HasRoom room height (mostOfPairs held))
      (.table (assigned ++ held.map fun entry => (entry.1.1, entry.2.1))) rest
      (decodeMap room (parseWithin floats) fuel height held.length assigned
        (some (joined chunks ++ rest))) := by
  induction each generalizing assigned fuel with
  | nil =>
      obtain ⟨fuel, rfl⟩ : ∃ less, fuel = less + 1 := ⟨fuel - 1, by omega⟩
      simp only [mostOfPairs, List.foldr_nil, List.length_nil, decodeMap]
      exact ⟨fun _ => by simp [joined], fun lacks => absurd hasRoom_zero lacks⟩
  | @cons chunk entry chunks held first others ih =>
      obtain ⟨fuel, rfl⟩ : ∃ less, fuel = less + 1 := ⟨fuel - 1, by omega⟩
      obtain ⟨key, value, allowed⟩ := first
      have positive := key.notEmpty
      have split : joined (chunk :: chunks) = chunk.1 ++ (chunk.2 ++ joined chunks) := by
        simp [joined]
      rw [split, List.length_append, List.length_append] at enough
      have ending := ih (assigned ++ [(entry.1.1, entry.2.1)]) fuel (by omega)
      -- The slot of the key is there when the key has been decoded.
      have same : HasRoom room height (mostOfPairs (entry :: held)) ↔
          HasRoom room height entry.1.2 ∧ HasRoom room (height + 1) entry.2.2 ∧
            HasRoom room height (mostOfPairs held) := by
        have below : HasRoom room height entry.1.2 → room height := fun has => has 0 key.needs
        have isMost : mostOfPairs (entry :: held) =
            max (max entry.1.2 (entry.2.2 + 1)) (mostOfPairs held) := rfl
        rw [isMost, hasRoom_max, hasRoom_max, hasRoom_succ]
        tauto
      rw [List.length_cons, decodeMap, split, List.append_assoc, List.append_assoc]
      refine EndsBy.congr ((key.decoded room fuel height _ (by omega)).andThen
        ((value.decoded room fuel (height + 1) _ (by omega)).andThen ?_)) same
      simp only [allowed]
      simpa using ending

/-- A head is decoded together with what follows it. -/
theorem decodes_headed {head body : ByteString} {val : Val} {value : Pushed} {need : Nat}
    (isToken : val ≠ .ERR)
    (parsed : ∀ rest, parseWithin floats (some (head ++ rest)) = (val, some rest))
    (decoded : ∀ room fuel height rest, 2 * body.length < fuel →
      EndsBy (HasRoom room height (need + 1)) value rest
        (decode room (parseWithin floats) (fuel + 1) height (some (head ++ (body ++ rest))))) :
    Decodes floats (head ++ body) value (need + 1) := by
  have alone := parsed []
  rw [List.append_nil] at alone
  have positive := one_le_length_of_parsed isToken alone
  refine ⟨by rw [List.length_append]; omega, Nat.succ_pos need,
    fun room fuel height rest enough => ?_⟩
  rw [List.length_append] at enough
  obtain ⟨fuel, rfl⟩ : ∃ less, fuel = less + 1 := ⟨fuel - 1, by omega⟩
  rw [List.append_assoc]
  exact decoded room fuel height rest (by omega)

theorem decodes_array {head : ByteString} {chunks : List ByteString}
    {held : List (Pushed × Nat)}
    (parsed : ∀ rest, parseWithin floats (some (head ++ rest)) = (.ARR held.length, some rest))
    (each : List.Forall₂ (fun chunk element => Decodes floats chunk element.1 element.2)
      chunks held) :
    Decodes floats (head ++ chunks.flatten) (.table (elements 0 (held.map Prod.fst)))
      (mostOf held + 1) := by
  apply decodes_headed (by simp) parsed
  intro room fuel height rest enough
  rw [decode, parsed]
  exact (decodeArray_elements each room [] fuel (height + 1) rest enough).push room height
    |>.congr hasRoom_succ

theorem decodes_map {head : ByteString} {chunks : List (ByteString × ByteString)}
    {held : List ((Pushed × Nat) × (Pushed × Nat))}
    (parsed : ∀ rest, parseWithin floats (some (head ++ rest)) = (.MAP held.length, some rest))
    (each : List.Forall₂ (DecodesEntry floats) chunks held) :
    Decodes floats (head ++ joined chunks)
      (.table (held.map fun entry => (entry.1.1, entry.2.1))) (mostOfPairs held + 1) := by
  apply decodes_headed (by simp) parsed
  intro room fuel height rest enough
  rw [decode, parsed]
  exact (decodeMap_entries each room [] fuel (height + 1) rest enough).push room height
    |>.congr hasRoom_succ

/-- What is decoded without looking behind the end is what the decoder returns, as long
as the stack has the slots. -/
theorem Decodes.decodeStringOn_iff {bytes : ByteString} {value : Pushed} {need : Nat}
    (decodes : Decodes floats bytes value need) (room : Nat → Bool) (behind : Nat → Byte) :
    (HasRoom room 0 need →
      decodeStringOn room floats ⟨bytes, behind⟩ = .returned value bytes.length) ∧
    (¬ HasRoom room 0 need → ∃ ps, decodeStringOn room floats ⟨bytes, behind⟩ = .overrun ps) := by
  have ends := decodes.decoded room (2 * bytes.length + 1) 0 [] (by omega)
  rw [List.append_nil] at ends
  change EndsBy _ _ _ (decodeWithinOn room floats bytes) at ends
  have follows := decodeStringOn_follows room floats ⟨bytes, behind⟩
  constructor
  · intro has
    rw [ends.returns has] at follows
    rcases follows with agree | ⟨⟨_, stopped | stopped, -⟩, -⟩
    · cases decoded : decodeStringOn room floats ⟨bytes, behind⟩ with
      | returned other ps =>
          rw [decoded] at agree
          obtain ⟨rfl, upTo, left⟩ := agree
          have ended := List.drop_eq_nil_iff.mp (Option.some.inj left).symm
          rw [le_antisymm upTo ended]
      | raised | overrun | unfinished => rw [decoded] at agree; exact agree.elim
    · exact absurd stopped (by simp)
    · exact absurd stopped (by simp)
  · intro lacks
    obtain ⟨left, overruns⟩ := ends.overruns lacks
    rw [overruns] at follows
    rcases follows with agree | ⟨⟨_, stopped | stopped, isLeft⟩, -⟩
    · cases decoded : decodeStringOn room floats ⟨bytes, behind⟩ with
      | overrun ps => exact ⟨ps, rfl⟩
      | returned | raised | unfinished => rw [decoded] at agree; exact agree.elim
    · exact absurd stopped (by simp)
    · obtain rfl := Decoded.overrun.inj stopped
      exact absurd isLeft (by simp)

/-- A stack that never ends has the slots. -/
theorem Decodes.decodeString_eq {bytes : ByteString} {value : Pushed} {need : Nat}
    (decodes : Decodes floats bytes value need) (behind : Nat → Byte) :
    decodeString floats ⟨bytes, behind⟩ = .returned value bytes.length :=
  (decodes.decodeStringOn_iff _ behind).1 fun _ _ => rfl

end Rules

section Values

variable {floats : Floats}

theorem pushedArray_eq (index : Nat) (entries : List (Value × Value)) :
    pushedArray floats index entries =
      elements index (entries.map fun entry => pushed floats entry.2) := by
  induction entries generalizing index with
  | nil => rfl
  | cons entry entries ih =>
      rw [pushedArray, ih, List.map_cons, elements_cons]

theorem pushedMap_eq (entries : List (Value × Value)) :
    pushedMap floats entries =
      entries.map fun entry => (pushed floats entry.1, pushed floats entry.2) := by
  induction entries with
  | nil => rfl
  | cons entry entries ih => rw [pushedMap, ih, List.map_cons]

theorem slotsOfArray_eq {asArray : Nat → List (Value × Value) → Bool}
    (read : Value × Value → Pushed) (entries : List (Value × Value)) :
    slotsOfArray asArray entries =
      mostOf (entries.map fun entry => (read entry, slots asArray entry.2)) := by
  induction entries with
  | nil => rfl
  | cons entry entries ih => rw [slotsOfArray, ih, List.map_cons, mostOf, mostOf, List.foldr_cons]

theorem slotsOfMap_eq {asArray : Nat → List (Value × Value) → Bool}
    (key value : Value × Value → Pushed) (entries : List (Value × Value)) :
    slotsOfMap asArray entries =
      mostOfPairs (entries.map fun entry =>
        ((key entry, slots asArray entry.1), (value entry, slots asArray entry.2))) := by
  induction entries with
  | nil => rfl
  | cons entry entries ih =>
      rw [slotsOfMap, ih, List.map_cons, mostOfPairs, mostOfPairs, List.foldr_cons]

theorem wireArray_eq (entries : List (Value × Value)) :
    wireArray floats entries = (entries.map fun entry => wire floats entry.2).flatten := by
  induction entries with
  | nil => rfl
  | cons entry entries ih => rw [wireArray, ih, List.map_cons, List.flatten_cons]

theorem wireMap_eq (entries : List (Value × Value)) :
    wireMap floats entries =
      joined (entries.map fun entry => (wire floats entry.1, wire floats entry.2)) := by
  induction entries with
  | nil => rfl
  | cons entry entries ih => simp [wireMap, ih, joined]

theorem keyError_pushed {key : Value} (isKey : key.IsKey) :
    keyError (pushed floats key) = none := by
  cases key with
  | nil => exact isKey.elim
  | number num =>
      have number := @not_isNaN_pushedDouble floats _ isKey
      simp [pushed, keyError, number]
  | boolean | integer | string | table => rfl

theorem decodes_string {s : ByteString} (short : s.length < 2 ^ 32) :
    Decodes floats ((stringWrites s.length).flatten ++ s) (.string s) 1 := by
  refine @decodes_single floats _ (.STR s) _ rfl fun rest => ?_
  rw [List.append_assoc]
  exact parse_string short rest

/-- The wire form of a value is decoded. -/
theorem decodes_wire (value : Value) (stored : value.All Value.IsStored) :
    Decodes floats (wire floats value) (pushed floats value) (slots isArray value) := by
  induction value with
  | nil => exact decodes_single rfl fun _ => rfl
  | boolean val => cases val <;> exact decodes_single rfl fun _ => rfl
  | integer num => exact decodes_single rfl (parse_integer stored.1 stored.2)
  | number num => exact decodes_single rfl (parse_double stored)
  | string s =>
      have length : (s.take (s.length % 2 ^ 32)).length = s.length % 2 ^ 32 := by
        rw [List.length_take]
        exact min_eq_left (Nat.mod_le _ _)
      have cut := @decodes_string floats (s.take (s.length % 2 ^ 32))
        (by rw [length]; exact Nat.mod_lt _ (by norm_num))
      rw [length] at cut
      exact cut
  | table rawlen entries ih =>
      obtain ⟨⟨keys, -, -, few⟩, inside⟩ := stored
      rw [allEntries_iff] at inside
      have count : tableLen entries = entries.length := Nat.mod_eq_of_lt few
      rw [wire, pushed, slots, count]
      by_cases array : isArray rawlen entries
      · rw [if_pos array, if_pos array, if_pos array, wireArray_eq, pushedArray_eq,
          slotsOfArray_eq fun entry => pushed floats entry.2]
        have decodes := @decodes_array floats (headWrites 0x90 0xdc 0xdd entries.length).flatten
          (entries.map fun entry => wire floats entry.2)
          (entries.map fun entry => (pushed floats entry.2, slots isArray entry.2)) ?_ ?_
        · rw [List.map_map] at decodes
          exact decodes
        · rw [List.length_map]
          exact parse_array few
        · rw [List.forall₂_map_left_iff, List.forall₂_map_right_iff, List.forall₂_same]
          exact fun entry member => (ih entry member).2 (inside entry member).2
      · rw [if_neg array, if_neg array, if_neg array, wireMap_eq, pushedMap_eq,
          slotsOfMap_eq (fun entry => pushed floats entry.1) fun entry => pushed floats entry.2]
        have decodes := @decodes_map floats (headWrites 0x80 0xde 0xdf entries.length).flatten
          (entries.map fun entry => (wire floats entry.1, wire floats entry.2))
          (entries.map fun entry => ((pushed floats entry.1, slots isArray entry.1),
            (pushed floats entry.2, slots isArray entry.2))) ?_ ?_
        · rw [List.map_map] at decodes
          exact decodes
        · rw [List.length_map]
          exact parse_map few
        · rw [List.forall₂_map_left_iff, List.forall₂_map_right_iff, List.forall₂_same]
          exact fun entry member => ⟨(ih entry member).1 (inside entry member).1,
            (ih entry member).2 (inside entry member).2, keyError_pushed (keys entry member).1⟩

end Values

end Msgpack

end LuaServer
