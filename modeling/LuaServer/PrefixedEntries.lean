import LuaServer.KeySortedLists
import LuaServer.LittleEndianBytes

/-!
# Entries behind the length of their key

A map from byte strings to 64-bit integers is stored entry after entry: the length of the
key in a fixed number of bytes, the key and the value.  Nothing separates the entries, so
each one is read back only if the length of its key fits its bytes.  The entries that are
read override those of the map they are put into.
-/

namespace LuaServer

/-- A sorted map from byte strings to integers. -/
abbrev ByteMap :=
  KeySorted (Prod.fst : ByteString × Int → ByteString)

namespace ByteMap

/-- The value of a key. -/
def value (map : ByteMap) (k : ByteString) : Option Int :=
  (map.find k).map Prod.snd

theorem value_eq_some {map : ByteMap} {k : ByteString} {v : Int} :
    map.value k = some v ↔ (k, v) ∈ map := by
  simp only [value, Option.map_eq_some_iff, KeySorted.find_eq_some, Prod.exists]
  constructor
  · rintro ⟨key, v, ⟨member, rfl⟩, rfl⟩
    exact member
  · intro member
    exact ⟨k, v, ⟨member, rfl⟩, rfl⟩

theorem value_eq_none {map : ByteMap} {k : ByteString} :
    map.value k = none ↔ ∀ v, (k, v) ∉ map := by
  rw [Option.eq_none_iff_forall_ne_some]
  exact forall_congr' fun v => not_congr value_eq_some

end ByteMap

namespace PrefixedEntries

open LittleEndian (splitBytes splitBytes_append toInt_eight toInt_eight_range)

variable {width : Nat} {entry : ByteString × Int} {map : ByteMap}

/-- The bytes of an entry. -/
def encode (width : Nat) (entry : ByteString × Int) : ByteString :=
  LittleEndian.ofNat width entry.1.length ++ (entry.1 ++ LittleEndian.ofInt 8 entry.2)

/-- The entry in front of a string and the bytes behind it, or nothing where they are not
in the string. -/
def decode (width : Nat) (str : ByteString) : Option ((ByteString × Int) × ByteString) := do
  let (len, str) ← splitBytes width str
  let (key, str) ← splitBytes (LittleEndian.toNat len) str
  let (v, str) ← splitBytes 8 str
  return ((key, LittleEndian.toInt v), str)

/-- An entry whose key and value fit their bytes. -/
structure Storable (width : Nat) (entry : ByteString × Int) : Prop where
  key : entry.1.length < 256 ^ width
  value : -2 ^ 63 ≤ entry.2 ∧ entry.2 < 2 ^ 63

theorem of_decode {str rest : ByteString} (read : decode width str = some (entry, rest)) :
    Storable width entry ∧ rest.length < str.length := by
  simp only [decode, splitBytes, Option.bind_eq_bind, Option.bind_eq_some_iff,
    Option.ite_none_right_eq_some, Option.some.injEq, Prod.exists, Prod.mk.injEq,
    Option.pure_def] at read
  obtain ⟨len, _, ⟨wide, isLen, rfl⟩, key, _, ⟨long, rfl, rfl⟩, v, _, ⟨eight, rfl, rfl⟩, rfl,
    rfl⟩ := read
  refine ⟨⟨?_, toInt_eight_range (List.length_take_of_le eight)⟩, ?_⟩
  · have below := LittleEndian.toNat_lt len
    rw [← isLen, List.length_take_of_le wide, isLen] at below
    rwa [List.length_take_of_le long]
  · simp only [List.length_drop] at eight ⊢
    omega

/-- The loop that reads the entries of a string into a map.  It returns nothing where it
reads behind the end of the string. -/
def readInto (width : Nat) (map : ByteMap) (str : ByteString) : Option ByteMap :=
  if str = [] then some map
  else
    match _ : decode width str with
    | none => none
    | some (entry, rest) => readInto width (map.put entry) rest
termination_by str.length
decreasing_by exact (of_decode ‹_›).2

theorem decode_encode (storable : Storable width entry) (rest : ByteString) :
    decode width (encode width entry ++ rest) = some (entry, rest) := by
  have length := LittleEndian.toNat_ofNat_of_lt storable.key
  simp only [decode, encode, List.append_assoc]
  rw [splitBytes_append _ (LittleEndian.length_ofNat width _)]
  simp only [Option.bind_eq_bind, Option.bind_some, length]
  rw [splitBytes_append _ rfl]
  simp only [Option.bind_some]
  rw [splitBytes_append _ (LittleEndian.length_ofInt 8 entry.2)]
  simp only [Option.bind_some, toInt_eight storable.value]
  rfl

/-- Reading the bytes of some entries puts them into the map one after another. -/
theorem readInto_encode {entries : List (ByteString × Int)} (map : ByteMap)
    (storable : ∀ entry ∈ entries, Storable width entry) :
    readInto width map (entries.flatMap (encode width)) =
      some (entries.foldl KeySorted.put map) := by
  induction entries generalizing map with
  | nil => simp [readInto]
  | cons entry entries ih =>
      have notEmpty : (entry :: entries).flatMap (encode width) ≠ [] := by
        intro empty
        have lengths := congrArg List.length empty
        simp [encode] at lengths
      rw [readInto, if_neg notEmpty, List.flatMap_cons,
        decode_encode (storable entry List.mem_cons_self)]
      exact ih _ fun other member => storable other (List.mem_cons_of_mem entry member)

/-- Reading any string puts entries into the map that fit their bytes. -/
theorem forall_storable_of_readInto {str : ByteString} {read : ByteMap}
    (returned : readInto width map str = some read)
    (storable : ∀ entry ∈ map, Storable width entry) : ∀ entry ∈ read, Storable width entry := by
  fun_induction readInto width map str with
  | case1 map =>
      cases returned
      exact storable
  | case2 => cases returned
  | case3 map str nonempty entry rest found ih =>
      refine ih returned fun other member => ?_
      rcases KeySorted.mem_put.mp member with rfl | ⟨old, -⟩
      · exact (of_decode found).1
      · exact storable other old

theorem mem_foldl_put {entries : List (ByteString × Int)}
    (apart : entries.Pairwise fun first second => first.1 < second.1) (map : ByteMap) :
    entry ∈ entries.foldl KeySorted.put map ↔
      entry ∈ entries ∨ entry ∈ map ∧ ∀ other ∈ entries, other.1 ≠ entry.1 := by
  induction entries generalizing map with
  | nil => simp
  | cons first entries ih =>
      obtain ⟨less, apartRest⟩ := List.pairwise_cons.mp apart
      have notAgain : entry = first → ∀ other ∈ entries, other.1 ≠ entry.1 := by
        rintro rfl other member same
        exact (less other member).ne' same
      rw [List.foldl_cons, ih apartRest, KeySorted.mem_put, List.mem_cons, List.forall_mem_cons,
        ne_comm (b := entry.1)]
      tauto

/-- What writing a map and reading it again leads to. -/
structure RoundTrip (seri : ByteMap → ByteString) (deseri : ByteMap → ByteString → Option ByteMap)
    (map : ByteMap) : Prop where
  fresh : deseri (KeySorted.empty _) (seri map) = some map
  override : ∀ old, ∃ read, deseri old (seri map) = some read ∧
    ∀ k, read.value k = (map.value k).or (old.value k)

/-- A map whose entries all fit their bytes is read back. -/
theorem roundTrip_of_storable {seri : ByteMap → ByteString}
    (isSeri : seri map = map.elements.flatMap (encode width))
    (storable : ∀ entry ∈ map, Storable width entry) :
    RoundTrip seri (readInto width) map := by
  have members : ∀ (old : ByteMap) (entry : ByteString × Int),
      entry ∈ map.elements.foldl KeySorted.put old ↔
        entry ∈ map.elements ∨ entry ∈ old ∧ ∀ other ∈ map.elements, other.1 ≠ entry.1 :=
    fun old entry => mem_foldl_put map.sorted old
  refine ⟨?_, fun old => ⟨map.elements.foldl KeySorted.put old, ?_, fun k => ?_⟩⟩
  · rw [isSeri, readInto_encode _ storable, Option.some.injEq]
    refine KeySorted.eq_of_mem_iff fun entry => ?_
    rw [members]
    simp [KeySorted.mem_elements]
  · rw [isSeri, readInto_encode _ storable]
  · cases found : map.value k with
    | none =>
        have absent := ByteMap.value_eq_none.mp found
        rw [Option.none_or]
        ext v
        rw [ByteMap.value_eq_some, ByteMap.value_eq_some, members]
        have elsewhere : ∀ other ∈ map.elements, other.1 ≠ k := by
          rintro other member rfl
          exact absent other.2 member
        constructor
        · rintro (here | ⟨kept, -⟩)
          · exact absurd rfl (elsewhere _ here)
          · exact kept
        · intro kept
          exact Or.inr ⟨kept, elsewhere⟩
    | some v =>
        rw [Option.some_or, ByteMap.value_eq_some, members]
        exact Or.inl (ByteMap.value_eq_some.mp found)

end PrefixedEntries

end LuaServer
