import LuaServer.ByteStrings
import LuaServer.MachineIntegers
import Mathlib.Data.List.Nodup
import Mathlib.Tactic.Common

/-!
# Lua values

A table is kept with its entries in the order in which Lua visits them, the
array part before the nodes of the hash part, and with the border `lua_rawlen`
reports.  A table that was just built is kept as the assignments made to it.
Floating point numbers are the 64 bits of a double.
-/

namespace LuaServer

namespace Lua

inductive Value where
  | nil
  | boolean (b : Bool)
  | integer (i : Int)
  | number (bits : Nat)
  | string (s : ByteString)
  | table (rawlen : Nat) (entries : List (Value × Value))

/-- A value on the stack, whose tables are given by their assignments in turn. -/
inductive Pushed where
  | nil
  | boolean (b : Bool)
  | integer (i : Int)
  | number (bits : Nat)
  | string (s : ByteString)
  | table (assigned : List (Pushed × Pushed))

/-- What a key of a table is found by, other than a table. -/
inductive Key where
  | boolean (b : Bool)
  | integer (i : Int)
  | number (bits : Nat)
  | string (s : ByteString)
  deriving DecidableEq, Repr

def isNaN (bits : Nat) : Bool :=
  bits / 2 ^ 52 % 2 ^ 11 = 2047 ∧ bits % 2 ^ 52 ≠ 0

/-- The integer a double is equal to, if it is one of 64 bits. -/
def floatToInteger (bits : Nat) : Option Int :=
  let exponent := bits / 2 ^ 52 % 2 ^ 11
  let fraction := bits % 2 ^ 52
  let significand := if exponent = 0 then fraction else 2 ^ 52 + fraction
  let shift : Int := (max exponent 1 : Nat) - 1075
  let divisor := 2 ^ (-shift).toNat
  let magnitude : Nat := significand * 2 ^ shift.toNat / divisor
  let value : Int := if bits / 2 ^ 63 % 2 = 1 then -(magnitude : Int) else magnitude
  if exponent ≠ 2047 ∧ significand % divisor = 0 ∧ -2 ^ 63 ≤ value ∧ value < 2 ^ 63 then
    some value
  else none

/-- A number with an integral value is found by its integer. -/
def numberKey (bits : Nat) : Key :=
  match floatToInteger bits with
  | some i => .integer i
  | none => .number bits

def Value.key : Value → Option Key
  | .boolean b => some (.boolean b)
  | .integer i => some (.integer i)
  | .number bits => some (numberKey bits)
  | .string s => some (.string s)
  | .nil | .table _ _ => none

def Pushed.key : Pushed → Option Key
  | .boolean b => some (.boolean b)
  | .integer i => some (.integer i)
  | .number bits => some (numberKey bits)
  | .string s => some (.string s)
  | .nil | .table _ => none

/-- What a table holds under a key. -/
def lookup (entries : List (Value × Value)) (key : Key) : Option Value :=
  (entries.find? fun entry => entry.1.key = some key).map Prod.snd

/-- What a table holds under a key behind its assignments: the last one counts,
and `nil` takes the key out. -/
def assignedAt (assigned : List (Pushed × Pushed)) (key : Key) : Option Pushed :=
  match (assigned.reverse.find? fun entry => entry.1.key = some key).map Prod.snd with
  | some .nil => none
  | found => found

/-- Structural equality: tables hold equal values under exactly the same keys. -/
inductive Equal : Value → Pushed → Prop where
  | nil : Equal .nil .nil
  | boolean (b : Bool) : Equal (.boolean b) (.boolean b)
  | integer (i : Int) : Equal (.integer i) (.integer i)
  | number (bits : Nat) : Equal (.number bits) (.number bits)
  | string (s : ByteString) : Equal (.string s) (.string s)
  | table {rawlen : Nat} {entries : List (Value × Value)} {assigned : List (Pushed × Pushed)}
      (keys : ∀ key, (lookup entries key).isSome ↔ (assignedAt assigned key).isSome)
      (values : ∀ key value pushed, lookup entries key = some value →
        assignedAt assigned key = some pushed → Equal value pushed) :
      Equal (.table rawlen entries) (.table assigned)

mutual

/-- A value built again, entry by entry. -/
def Value.copied : Value → Pushed
  | .nil => .nil
  | .boolean b => .boolean b
  | .integer i => .integer i
  | .number bits => .number bits
  | .string s => .string s
  | .table _ entries => .table (copiedEntries entries)

def copiedEntries : List (Value × Value) → List (Pushed × Pushed)
  | [] => []
  | (key, value) :: rest => (key.copied, value.copied) :: copiedEntries rest

end

/-- Induction over a value and the keys and values of its tables. -/
@[elab_as_elim, induction_eliminator]
theorem Value.inductOn {motive : Value → Prop} (value : Value) (nil : motive .nil)
    (boolean : ∀ b, motive (.boolean b)) (integer : ∀ i, motive (.integer i))
    (number : ∀ bits, motive (.number bits)) (string : ∀ s, motive (.string s))
    (table : ∀ rawlen entries, (∀ entry ∈ entries, motive entry.1 ∧ motive entry.2) →
      motive (.table rawlen entries)) : motive value := by
  match value with
  | .nil => exact nil
  | .boolean b => exact boolean b
  | .integer i => exact integer i
  | .number bits => exact number bits
  | .string s => exact string s
  | .table rawlen entries =>
      apply table
      rintro ⟨key, held⟩ member
      exact ⟨Value.inductOn key nil boolean integer number string table,
        Value.inductOn held nil boolean integer number string table⟩
termination_by value
decreasing_by
  · have smaller := List.sizeOf_lt_of_mem member
    simp only [Prod.mk.sizeOf_spec, Value.table.sizeOf_spec] at smaller ⊢
    omega
  · have smaller := List.sizeOf_lt_of_mem member
    simp only [Prod.mk.sizeOf_spec, Value.table.sizeOf_spec] at smaller ⊢
    omega

/-- Different elements have different keys. -/
def KeysApart {α κ : Type} (key : α → Option κ) (list : List α) : Prop :=
  list.Pairwise fun first second => ∀ k, key first = some k → key second ≠ some k

/-- A value that may be a key. -/
def Value.IsKey : Value → Prop
  | .nil => False
  | .number bits => isNaN bits = false
  | _ => True

/-- A border of a table: it holds something under the border, which may be 0, and
nothing under the next integer. -/
def IsBorder (rawlen : Nat) (entries : List (Value × Value)) : Prop :=
  (rawlen = 0 ∨ (lookup entries (.integer rawlen)).isSome) ∧
    lookup entries (.integer (rawlen + 1)) = none

/-- What holds of a value itself: a number has 64 bits, and a table maps different
keys to values and has fewer than `2 ^ 32` entries. -/
def Value.IsStored : Value → Prop
  | .integer i => -2 ^ 63 ≤ i ∧ i < 2 ^ 63
  | .number bits => bits < 2 ^ 64
  | .table rawlen entries =>
      (∀ entry ∈ entries, entry.1.IsKey ∧ entry.2 ≠ .nil) ∧
        KeysApart (fun entry => entry.1.key) entries ∧
        IsBorder rawlen entries ∧ entries.length < 2 ^ 32
  | _ => True

/-- A key without a floating point number. -/
def Value.IsPlainKey : Value → Prop
  | .integer _ | .string _ => True
  | _ => False

/-- What holds of a value that is no floating point number: the keys of a table are
integers and strings. -/
def Value.IsPlain : Value → Prop
  | .number _ => False
  | .table _ entries => ∀ entry ∈ entries, entry.1.IsPlainKey
  | _ => True

/-- The length of a string takes 32 bits. -/
def Value.IsShort : Value → Prop
  | .string s => s.length < 2 ^ 32
  | _ => True

mutual

/-- A property of a value and of all keys and values in its tables. -/
def Value.All (holds : Value → Prop) : Value → Prop
  | .table rawlen entries => holds (.table rawlen entries) ∧ AllEntries holds entries
  | value => holds value

def AllEntries (holds : Value → Prop) : List (Value × Value) → Prop
  | [] => True
  | (key, value) :: rest => key.All holds ∧ value.All holds ∧ AllEntries holds rest

end

theorem Value.IsPlainKey.exists_key {key : Value} (plain : key.IsPlainKey) :
    ∃ found, key.key = some found := by
  cases key with
  | integer i => exact ⟨_, rfl⟩
  | string s => exact ⟨_, rfl⟩
  | nil | boolean | number | table => exact plain.elim

theorem Pushed.eq_string_of_key {key : Pushed} {s : ByteString}
    (isKey : key.key = some (.string s)) : key = .string s := by
  cases key with
  | string other => simpa [Pushed.key] using isKey
  | number bits =>
      simp only [Pushed.key, numberKey, Option.some.injEq] at isKey
      split at isKey <;> exact absurd isKey (by simp)
  | nil | boolean | integer | table => simp [Pushed.key] at isKey

theorem Value.All.here {holds : Value → Prop} {value : Value} (all : value.All holds) :
    holds value := by
  cases value with
  | table rawlen entries => exact all.1
  | nil | boolean | integer | number | string => exact all

theorem allEntries_iff {holds : Value → Prop} {entries : List (Value × Value)} :
    AllEntries holds entries ↔ ∀ entry ∈ entries, entry.1.All holds ∧ entry.2.All holds := by
  induction entries with
  | nil => simp [AllEntries]
  | cons entry entries ih => simp [AllEntries, ih, and_assoc]

section Tables

/-- Among elements with different keys the one with a key is the one that is found. -/
theorem find?_eq_some_iff {α κ : Type} [DecidableEq κ] {key : α → Option κ} {list : List α}
    (apart : KeysApart key list) {k : κ} {found : α} :
    list.find? (fun other => key other = some k) = some found ↔
      found ∈ list ∧ key found = some k := by
  induction apart with
  | nil => simp
  | @cons first rest before _ ih =>
      by_cases here : key first = some k
      · simp only [List.find?_cons, here, decide_true, Option.some.injEq, List.mem_cons]
        constructor
        · rintro rfl
          exact ⟨Or.inl rfl, here⟩
        · rintro ⟨rfl | member, isKey⟩
          · rfl
          · exact absurd isKey (before found member k here)
      · simp only [List.find?_cons, here, decide_false, ih, List.mem_cons]
        constructor
        · exact fun ⟨member, isKey⟩ => ⟨Or.inr member, isKey⟩
        · rintro ⟨rfl | member, isKey⟩
          · exact absurd isKey here
          · exact ⟨member, isKey⟩

theorem KeysApart.reverse {α κ : Type} {key : α → Option κ} {list : List α}
    (apart : KeysApart key list) : KeysApart key list.reverse :=
  List.pairwise_reverse.mpr
    (List.Pairwise.imp (fun different k isKey other => different k other isKey) apart)

variable {entries : List (Value × Value)} {assigned : List (Pushed × Pushed)} {key : Key}

theorem lookup_eq_some_iff (apart : KeysApart (fun entry => entry.1.key) entries)
    {value : Value} :
    lookup entries key = some value ↔
      ∃ entry ∈ entries, entry.1.key = some key ∧ entry.2 = value := by
  rw [lookup, Option.map_eq_some_iff]
  simp only [find?_eq_some_iff apart, and_assoc]

theorem mem_of_assignedAt {pushed : Pushed} (found : assignedAt assigned key = some pushed) :
    ∃ entry ∈ assigned, entry.1.key = some key ∧ entry.2 = pushed := by
  rw [assignedAt] at found
  split at found
  next => exact absurd found (by simp)
  next =>
    obtain ⟨entry, isEntry, isPushed⟩ := Option.map_eq_some_iff.mp found
    exact ⟨entry, List.mem_reverse.mp (List.mem_of_find?_eq_some isEntry),
      by simpa using List.find?_some isEntry, isPushed⟩

/-- Where every key is assigned once and to a value, all assignments count. -/
theorem assignedAt_eq_some_iff (apart : KeysApart (fun entry => entry.1.key) assigned)
    (values : ∀ entry ∈ assigned, entry.2 ≠ .nil) {pushed : Pushed} :
    assignedAt assigned key = some pushed ↔
      ∃ entry ∈ assigned, entry.1.key = some key ∧ entry.2 = pushed := by
  have last : ∀ {held : Pushed},
      (assigned.reverse.find? fun entry => entry.1.key = some key).map Prod.snd = some held ↔
        ∃ entry ∈ assigned, entry.1.key = some key ∧ entry.2 = held := by
    intro held
    rw [Option.map_eq_some_iff]
    simp only [find?_eq_some_iff apart.reverse, List.mem_reverse, and_assoc]
  rw [← last, assignedAt]
  split
  next isNil =>
    obtain ⟨entry, member, -, held⟩ := last.mp isNil
    exact absurd held (values entry member)
  next => rfl

/-- A table that is assigned entry by entry holds the image of every entry. -/
theorem assignedAt_map (apart : KeysApart (fun entry => entry.1.key) entries)
    {keyImage image : Value → Pushed}
    (keys : ∀ entry ∈ entries, (keyImage entry.1).key = entry.1.key)
    (values : ∀ entry ∈ entries, image entry.2 ≠ .nil) :
    assignedAt (entries.map fun entry => (keyImage entry.1, image entry.2)) key =
      (lookup entries key).map image := by
  have imagesApart : KeysApart (fun entry : Pushed × Pushed => entry.1.key)
      (entries.map fun entry => (keyImage entry.1, image entry.2)) := by
    refine List.pairwise_map.mpr (apart.imp_of_mem fun first second different k isKey => ?_)
    simp only [keys _ first] at isKey
    simp only [keys _ second]
    exact different k isKey
  have imagesNotNil : ∀ entry ∈ entries.map fun entry => (keyImage entry.1, image entry.2),
      entry.2 ≠ .nil :=
    List.forall_mem_map.mpr values
  ext pushed
  rw [assignedAt_eq_some_iff imagesApart imagesNotNil, Option.map_eq_some_iff]
  simp only [lookup_eq_some_iff apart, List.mem_map]
  constructor
  · rintro ⟨_, ⟨entry, member, rfl⟩, isKey, rfl⟩
    rw [keys entry member] at isKey
    exact ⟨entry.2, ⟨entry, member, isKey, rfl⟩, rfl⟩
  · rintro ⟨_, ⟨entry, member, isKey, rfl⟩, rfl⟩
    exact ⟨_, ⟨entry, member, rfl⟩, by rw [keys entry member, isKey], rfl⟩

theorem copiedEntries_eq (entries : List (Value × Value)) :
    copiedEntries entries = entries.map fun entry => (entry.1.copied, entry.2.copied) := by
  induction entries with
  | nil => rfl
  | cons entry entries ih => rw [copiedEntries, ih, List.map_cons]

theorem Value.copied_ne_nil {value : Value} (notNil : value ≠ .nil) : value.copied ≠ .nil := by
  cases value with
  | nil => exact absurd rfl notNil
  | boolean | integer | number | string | table => simp [Value.copied]

theorem Value.key_copied (value : Value) : value.copied.key = value.key := by
  cases value <;> rfl

theorem equal_copied (value : Value) (stored : value.All Value.IsStored) :
    Equal value value.copied := by
  induction value with
  | nil => exact .nil
  | boolean b => exact .boolean b
  | integer i => exact .integer i
  | number bits => exact .number bits
  | string s => exact .string s
  | table rawlen entries ih =>
      obtain ⟨⟨held, apart, -, -⟩, inside⟩ := stored
      rw [allEntries_iff] at inside
      have assigned : ∀ key, assignedAt (copiedEntries entries) key =
          (lookup entries key).map Value.copied := by
        intro key
        rw [copiedEntries_eq]
        exact assignedAt_map apart (fun entry _ => entry.1.key_copied)
          fun entry member => Value.copied_ne_nil (held entry member).2
      refine .table (fun key => by rw [assigned, Option.isSome_map]) ?_
      intro key value read isValue isRead
      rw [assigned, isValue] at isRead
      obtain rfl := Option.some.inj isRead
      obtain ⟨entry, member, -, rfl⟩ := (lookup_eq_some_iff apart).mp isValue
      exact (ih entry member).2 (inside entry member).2

end Tables

end Lua

end LuaServer
