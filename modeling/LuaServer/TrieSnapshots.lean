import LuaServer.PrefixedEntries

/-!
# Snapshots of the tries

The two bindings store the entries of their trie one after another.  One of them writes the
length of a key in 16 bits and takes no longer key; the other writes 32 bits.  So each key
that an operation can put into a trie fits, and a snapshot gives its entries back.
-/

namespace LuaServer

open PrefixedEntries

namespace Pdbs

/-- `UINT16_MAX`. -/
def UINT16_MAX : Nat := 65535

namespace Ltrie

/-- `Ltrie::insert`: a key that is in the trie keeps its value. -/
def insert (trie : ByteMap) (k : ByteString) (v : Int) : Except String ByteMap :=
  if k.length > UINT16_MAX then .error "trie k too long"
  else if trie.find k ≠ none then .ok trie
  else .ok (trie.put (k, v))

/-- `Ltrie::erase`. -/
def erase (trie : ByteMap) (k : ByteString) : ByteMap :=
  trie.drop k

/-- What a round of the loop of `Ltrie::seri` appends. -/
def seriEntry (entry : ByteString × Int) : ByteString :=
  let klen := entry.1.length % 2 ^ 16
  LittleEndian.ofNat 2 klen ++ (entry.1.take klen ++ LittleEndian.ofInt 8 entry.2)

/-- `Ltrie::seri`. -/
def seri (trie : ByteMap) : ByteString :=
  trie.elements.flatMap seriEntry

/-- `Ltrie::deseri`, which returns nothing when it reads behind the end of the string. -/
def deseri (trie : ByteMap) (str : ByteString) : Option ByteMap :=
  readInto 2 trie str

/-- The tries that the operations lead to.  Values are integers of Lua. -/
inductive Reached : ByteMap → Prop where
  | create : Reached (KeySorted.empty _)
  | insert {trie inserted : ByteMap} {k : ByteString} {v : Int} (reached : Reached trie)
      (integer : -2 ^ 63 ≤ v ∧ v < 2 ^ 63) (returned : insert trie k v = .ok inserted) :
      Reached inserted
  | erase {trie : ByteMap} (reached : Reached trie) (k : ByteString) : Reached (erase trie k)
  | deseri {trie read : ByteMap} {str : ByteString} (reached : Reached trie)
      (returned : deseri trie str = some read) : Reached read

end Ltrie

end Pdbs

namespace Hat

namespace Ltrie

/-- `set`. -/
def set (trie : ByteMap) (k : ByteString) (v : Int) : ByteMap :=
  trie.put (k, v)

/-- `erase`. -/
def erase (trie : ByteMap) (k : ByteString) : ByteMap :=
  trie.drop k

/-- `erase_prefix`. -/
def erasePrefix (trie : ByteMap) (pre : ByteString) : ByteMap :=
  trie.restrict fun entry => ¬ pre <+: entry.1

/-- What a round of the loop of `seri` appends. -/
def seriEntry (entry : ByteString × Int) : ByteString :=
  let len := entry.1.length % 2 ^ 32
  LittleEndian.ofNat 4 len ++ (entry.1 ++ LittleEndian.ofInt 8 entry.2)

/-- `seri`. -/
def seri (trie : ByteMap) : ByteString :=
  trie.elements.flatMap seriEntry

/-- `deseri`, which returns nothing when it reads behind the end of the string. -/
def deseri (trie : ByteMap) (str : ByteString) : Option ByteMap :=
  readInto 4 trie str

/-- The tries that the operations lead to.  Values are integers of Lua. -/
inductive Reached : ByteMap → Prop where
  | create : Reached (KeySorted.empty _)
  | set {trie : ByteMap} {k : ByteString} {v : Int} (reached : Reached trie)
      (short : k.length ≤ 65535) (integer : -2 ^ 63 ≤ v ∧ v < 2 ^ 63) : Reached (set trie k v)
  | erase {trie : ByteMap} (reached : Reached trie) (k : ByteString) : Reached (erase trie k)
  | erasePrefix {trie : ByteMap} (reached : Reached trie) (pre : ByteString) :
      Reached <| erasePrefix trie pre
  | deseri {trie read : ByteMap} {str : ByteString} (reached : Reached trie)
      (returned : deseri trie str = some read) : Reached read

end Ltrie

end Hat

section Entries

variable {width : Nat} {trie : ByteMap}

theorem storable_put {k : ByteString} {v : Int} (storable : ∀ entry ∈ trie, Storable width entry)
    (fits : k.length < 256 ^ width) (integer : -2 ^ 63 ≤ v ∧ v < 2 ^ 63) :
    ∀ entry ∈ trie.put (k, v), Storable width entry := by
  intro entry member
  rcases KeySorted.mem_put.mp member with rfl | ⟨old, -⟩
  · exact ⟨fits, integer⟩
  · exact storable entry old

theorem flatMap_congr_storable {seriEntry : ByteString × Int → ByteString}
    (each : ∀ entry, Storable width entry → seriEntry entry = encode width entry)
    (storable : ∀ entry ∈ trie, Storable width entry) :
    trie.elements.flatMap seriEntry = trie.elements.flatMap (encode width) :=
  List.flatMap_congr fun entry member => each entry (storable entry member)

end Entries

namespace Pdbs.Ltrie

variable {trie : ByteMap}

theorem seriEntry_eq_encode {entry : ByteString × Int} (storable : Storable 2 entry) :
    seriEntry entry = encode 2 entry := by
  have fits : entry.1.length % 2 ^ 16 = entry.1.length := Nat.mod_eq_of_lt storable.key
  simp only [seriEntry, encode, fits, List.take_length]

theorem Reached.storable (reached : Reached trie) : ∀ entry ∈ trie, Storable 2 entry := by
  induction reached with
  | create => exact fun entry none => absurd none KeySorted.not_mem_empty
  | @insert trie inserted k v reached integer returned ih =>
      unfold Ltrie.insert at returned
      split at returned
      · cases returned
      · next notLong =>
        split at returned
        · cases returned
          exact ih
        · cases returned
          exact storable_put ih (Nat.lt_succ_of_le (not_lt.mp notLong)) integer
  | erase reached k ih => exact fun entry member => ih entry (KeySorted.mem_drop.mp member).1
  | deseri reached returned ih => exact forall_storable_of_readInto returned ih

theorem roundTrip (reached : Reached trie) : RoundTrip seri deseri trie :=
  roundTrip_of_storable
    (flatMap_congr_storable (fun _ => seriEntry_eq_encode) reached.storable) reached.storable

end Pdbs.Ltrie

namespace Hat.Ltrie

variable {trie : ByteMap}

theorem seriEntry_eq_encode {entry : ByteString × Int} (storable : Storable 4 entry) :
    seriEntry entry = encode 4 entry := by
  have fits : entry.1.length % 2 ^ 32 = entry.1.length := Nat.mod_eq_of_lt storable.key
  simp only [seriEntry, encode, fits]

theorem Reached.storable (reached : Reached trie) : ∀ entry ∈ trie, Storable 4 entry := by
  induction reached with
  | create => exact fun entry none => absurd none KeySorted.not_mem_empty
  | set reached short integer ih =>
      exact storable_put ih (lt_of_le_of_lt short (by norm_num)) integer
  | erase reached k ih => exact fun entry member => ih entry (KeySorted.mem_drop.mp member).1
  | erasePrefix reached pre ih =>
      exact fun entry member => ih entry (KeySorted.mem_restrict.mp member).1
  | deseri reached returned ih => exact forall_storable_of_readInto returned ih

theorem roundTrip (reached : Reached trie) : RoundTrip seri deseri trie :=
  roundTrip_of_storable
    (flatMap_congr_storable (fun _ => seriEntry_eq_encode) reached.storable) reached.storable

end Hat.Ltrie

/-- Snapshots of both tries are read back, into an empty trie as they were and into another
one over its entries. -/
theorem tries_roundTrip :
    (∀ trie, Pdbs.Ltrie.Reached trie →
      RoundTrip Pdbs.Ltrie.seri Pdbs.Ltrie.deseri trie) ∧
    ∀ trie, Hat.Ltrie.Reached trie → RoundTrip Hat.Ltrie.seri Hat.Ltrie.deseri trie :=
  ⟨fun _ => Pdbs.Ltrie.roundTrip, fun _ => Hat.Ltrie.roundTrip⟩

/-- A trie of three keys, of which one is in front of another and one is erased again. -/
def threeKeys : ByteMap :=
  ((((KeySorted.empty _).put ([1], 7)).put ([1, 2], -1)).put ([3], 9)).drop [3]

theorem tries_roundTrip_three :
    RoundTrip Pdbs.Ltrie.seri Pdbs.Ltrie.deseri threeKeys ∧
      RoundTrip Hat.Ltrie.seri Hat.Ltrie.deseri threeKeys := by
  have first : Pdbs.Ltrie.Reached ((KeySorted.empty _).put ([1], 7)) :=
    .insert (k := [1]) (v := 7) .create (by norm_num) rfl
  have second : Pdbs.Ltrie.Reached (((KeySorted.empty _).put ([1], 7)).put ([1, 2], -1)) :=
    .insert (k := [1, 2]) (v := -1) first (by norm_num) rfl
  have third : Pdbs.Ltrie.Reached
      ((((KeySorted.empty _).put ([1], 7)).put ([1, 2], -1)).put ([3], 9)) :=
    .insert (k := [3]) (v := 9) second (by norm_num) rfl
  have sets := Hat.Ltrie.Reached.create.set (k := [1]) (v := 7) (by decide) (by norm_num)
  have more := sets.set (k := [1, 2]) (v := -1) (by decide) (by norm_num)
  have all := more.set (k := [3]) (v := 9) (by decide) (by norm_num)
  exact ⟨tries_roundTrip.1 _ (third.erase [3]), tries_roundTrip.2 _ (all.erase [3])⟩

end LuaServer
