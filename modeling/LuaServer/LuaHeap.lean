import LuaServer.LuaValues
import Mathlib.Data.List.AList

/-!
# Tables on a heap

A table is a place on a heap, and what it holds may hold the table again.  Values are
compared along paths: a path is the keys under which one goes from table to table.  What a
path leads to depends only on the tables it goes through, so a value is unchanged when these
are, and a copy made of tables that are all new shares none with anything else.
-/

namespace LuaServer

namespace LuaHeap

inductive Kind where
  | lightuserdata
  | function
  | userdata
  | thread
  deriving DecidableEq

/-- A Lua value, a table being the place it is at.  Floating point numbers are the 64 bits of
a double; values of the other kinds have an identity. -/
inductive Value where
  | nil
  | boolean (b : Bool)
  | integer (i : Int)
  | number (bits : Nat)
  | string (s : ByteString)
  | table (addr : Nat)
  | other (kind : Kind) (id : Nat)
  deriving DecidableEq

/-- The entries of a table, in the order in which Lua visits them. -/
abbrev Table :=
  AList fun _ : Value => Value

namespace Value

def IsTable : Value → Prop
  | .table _ => True
  | _ => False

def IsScalar : Value → Prop
  | .boolean _ | .integer _ | .number _ | .string _ => True
  | _ => False

/-- The key that a value is found by: numbers with an integral value are integers. -/
def asKey : Value → Except String Value
  | .nil => .error "table index is nil"
  | .number bits =>
      if Lua.isNaN bits then .error "table index is NaN"
      else
        match Lua.floatToInteger bits with
        | some i => .ok (.integer i)
        | none => .ok (.number bits)
  | value => .ok value

def IsKey (value : Value) : Prop :=
  value.asKey = .ok value

/-- A table of a heap of this size. -/
def Below (size : Nat) : Value → Prop
  | .table addr => addr < size
  | _ => True

/-- What is compared of a value: of a table, that it is one. -/
def shape : Value → Value
  | .table _ => .table 0
  | value => value

theorem Below.mono {size size' : Nat} (upTo : size ≤ size') {value : Value}
    (below : value.Below size) : value.Below size' := by
  cases value with
  | table addr => exact lt_of_lt_of_le below upTo
  | _ => trivial

theorem isKey_of_asKey {value key : Value} (isKey : value.asKey = .ok key) : key.IsKey := by
  cases value with
  | nil => exact nomatch isKey
  | number bits =>
      rw [asKey] at isKey
      split at isKey
      · exact nomatch isKey
      next notNaN =>
        split at isKey
        · exact Except.ok.inj isKey ▸ rfl
        next notIntegral =>
          rw [← Except.ok.inj isKey, IsKey, asKey, if_neg notNaN, notIntegral]
  | _ => exact Except.ok.inj isKey ▸ rfl

theorem asKey_below {size : Nat} {value key : Value} (below : value.Below size)
    (isKey : value.asKey = .ok key) : key.Below size := by
  cases value with
  | nil => exact nomatch isKey
  | number bits =>
      rw [asKey] at isKey
      split at isKey
      · exact nomatch isKey
      · split at isKey <;> exact Except.ok.inj isKey ▸ trivial
  | _ => exact Except.ok.inj isKey ▸ below

/-- Values of one shape are equal or both tables. -/
theorem eq_or_isTable {value copy : Value} (same : copy.shape = value.shape) :
    copy = value ∨ copy.IsTable ∧ value.IsTable := by
  cases value with
  | table _ =>
      cases copy with
      | table _ => exact Or.inr ⟨trivial, trivial⟩
      | _ => exact nomatch same
  | _ =>
      cases copy with
      | table _ => exact nomatch same
      | _ => exact Or.inl same

theorem isKey_of_isTable {value : Value} (isTable : value.IsTable) : value.IsKey := by
  cases value with
  | table _ => rfl
  | _ => exact absurd isTable id

theorem IsTable.not_isScalar {value : Value} (isTable : value.IsTable) : ¬ value.IsScalar := by
  cases value with
  | table _ => exact id
  | _ => exact absurd isTable id

end Value

/-- An entry of a table: its key is in the form in which it is found, and the tables it names
are on the heap. -/
structure Held (size : Nat) (entry : Sigma fun _ : Value => Value) : Prop where
  isKey : entry.1.IsKey
  key : entry.1.Below size
  value : entry.2.Below size

structure Heap where
  size : Nat
  tables : Nat → Table
  held : ∀ addr, ∀ entry ∈ (tables addr).entries, Held size entry

theorem held_update {size : Nat} {tables : Nat → Table} {place : Nat} {table : Table}
    (held : ∀ addr, ∀ entry ∈ (tables addr).entries, Held size entry)
    (heldHere : ∀ entry ∈ table.entries, Held size entry) (addr : Nat) :
    ∀ entry ∈ (Function.update tables place table addr).entries, Held size entry := by
  by_cases isPlace : addr = place
  · rw [isPlace, Function.update_self]
    exact heldHere
  · rw [Function.update_of_ne isPlace]
    exact held addr

namespace Heap

theorem empty_held (_ : Nat) : ∀ entry ∈ (∅ : Table).entries, Held 0 entry :=
  fun _ => List.not_mem_nil.elim

def empty : Heap where
  size := 0
  tables := fun _ => ∅
  held := empty_held

theorem create_held (heap : Heap) (addr : Nat) :
    ∀ entry ∈ (Function.update heap.tables heap.size ∅ addr).entries,
      Held (heap.size + 1) entry := by
  refine held_update (fun addr entry isEntry => ?_) (fun _ => List.not_mem_nil.elim) addr
  obtain ⟨isKey, key, value⟩ := heap.held addr entry isEntry
  exact ⟨isKey, key.mono (Nat.le_succ _), value.mono (Nat.le_succ _)⟩

/-- A new table, at the end of the heap. -/
def create (heap : Heap) : Heap where
  size := heap.size + 1
  tables := Function.update heap.tables heap.size ∅
  held := heap.create_held

theorem set_held (heap : Heap) (place : Nat) {key value : Value}
    (held : Held heap.size ⟨key, value⟩) (addr : Nat) :
    ∀ entry ∈ (Function.update heap.tables place
      ((heap.tables place).insert key value) addr).entries, Held heap.size entry := by
  refine held_update heap.held (fun entry isEntry => ?_) addr
  rw [AList.entries_insert] at isEntry
  rcases List.mem_cons.mp isEntry with rfl | isOld
  · exact held
  · exact heap.held place entry ((List.kerase_sublist key _).mem isOld)

/-- An assignment to a table. -/
def set (heap : Heap) (place : Nat) (key value : Value) (held : Held heap.size ⟨key, value⟩) :
    Heap where
  size := heap.size
  tables := Function.update heap.tables place ((heap.tables place).insert key value)
  held := heap.set_held place held

theorem erase_held (heap : Heap) (place : Nat) (key : Value) (addr : Nat) :
    ∀ entry ∈ (Function.update heap.tables place ((heap.tables place).erase key) addr).entries,
      Held heap.size entry :=
  held_update heap.held
    (fun entry isEntry => heap.held place entry ((List.kerase_sublist key _).mem isEntry)) addr

/-- An assignment of `nil`. -/
def erase (heap : Heap) (place : Nat) (key : Value) : Heap where
  size := heap.size
  tables := Function.update heap.tables place ((heap.tables place).erase key)
  held := heap.erase_held place key

/-- What a path leads to. -/
def lookup (heap : Heap) : Value → List Value → Option Value
  | value, [] => some value
  | .table addr, key :: path =>
      ((heap.tables addr).lookup key).bind fun value => heap.lookup value path
  | _, _ :: _ => none

/-- The value is made of scalars and of tables that hold one another at most so often. -/
def Nested (heap : Heap) : Nat → Value → Prop
  | limit + 1, .table addr =>
      ∀ entry ∈ (heap.tables addr).entries,
        heap.Nested limit entry.1 ∧ heap.Nested limit entry.2
  | _, value => value.IsScalar

/-- The value is made so, and all keys are scalars. -/
def Plain (heap : Heap) : Nat → Value → Prop
  | limit + 1, .table addr =>
      ∀ entry ∈ (heap.tables addr).entries,
        entry.1.IsScalar ∧ heap.Plain limit entry.2
  | _, value => value.IsScalar

/-- The heap after more tables were made: the tables that were there are unchanged. -/
structure Extends (heap heap' : Heap) : Prop where
  size : heap.size ≤ heap'.size
  tables : ∀ addr < heap.size, heap'.tables addr = heap.tables addr

variable {heap heap' : Heap}

theorem Extends.refl (heap : Heap) : heap.Extends heap :=
  ⟨le_refl _, fun _ _ => rfl⟩

theorem Extends.trans {heap'' : Heap} (first : heap.Extends heap')
    (second : heap'.Extends heap'') : heap.Extends heap'' := by
  refine ⟨first.size.trans second.size, fun addr below => ?_⟩
  rw [second.tables addr (lt_of_lt_of_le below first.size), first.tables addr below]

theorem create_tables_self : heap.create.tables heap.size = ∅ :=
  Function.update_self _ _ _

theorem set_tables_self {place : Nat} {key value : Value}
    {held : Held heap.size ⟨key, value⟩} :
    (heap.set place key value held).tables place =
      (heap.tables place).insert key value :=
  Function.update_self _ _ _

@[simp]
theorem lookup_nil (value : Value) : heap.lookup value [] = some value := by
  cases value <;> rfl

@[simp]
theorem lookup_table (addr : Nat) (key : Value) (path : List Value) :
    heap.lookup (.table addr) (key :: path) =
      ((heap.tables addr).lookup key).bind fun value => heap.lookup value path :=
  rfl

theorem lookup_scalar {value : Value} (scalar : value.IsScalar) (key : Value)
    (path : List Value) : heap.lookup value (key :: path) = none := by
  cases value with
  | table _ => exact absurd scalar id
  | _ => rfl

theorem mem_of_lookup {addr : Nat} {key value : Value}
    (found : (heap.tables addr).lookup key = some value) :
    ⟨key, value⟩ ∈ (heap.tables addr).entries :=
  AList.mem_lookup_iff.mp found

/-- What a path leads to is on the heap. -/
theorem lookup_below (path : List Value) {value found : Value} (below : value.Below heap.size)
    (isFound : heap.lookup value path = some found) : found.Below heap.size := by
  induction path generalizing value with
  | nil =>
      rw [lookup_nil, Option.some.injEq] at isFound
      exact isFound ▸ below
  | cons key path ih =>
      cases value with
      | table addr =>
          rw [lookup_table] at isFound
          obtain ⟨next, isNext, isFound⟩ := Option.bind_eq_some_iff.mp isFound
          exact ih (heap.held addr _ (mem_of_lookup isNext)).value isFound
      | _ => exact absurd isFound nofun

/-- What the paths of a value lead to depends on the tables on them alone. -/
theorem lookup_congr (path : List Value) {value : Value}
    (same : ∀ part addr, heap.lookup value part = some (.table addr) →
      heap'.tables addr = heap.tables addr) :
    heap'.lookup value path = heap.lookup value path := by
  induction path generalizing value with
  | nil => rw [lookup_nil, lookup_nil]
  | cons key path ih =>
      cases value with
      | table addr =>
          rw [lookup_table, lookup_table, same [] addr rfl]
          refine Option.bind_congr fun next isNext => ih fun part place isPlace => ?_
          refine same (key :: part) place ?_
          rw [lookup_table, isNext]
          exact isPlace
      | _ => rfl

theorem Extends.lookup (grown : heap.Extends heap') {value : Value}
    (below : value.Below heap.size) (path : List Value) :
    heap'.lookup value path = heap.lookup value path :=
  lookup_congr path fun part addr isFound => grown.tables addr (lookup_below part below isFound)

theorem nested_iff_of_extends (grown : heap.Extends heap') (limit : Nat) {value : Value}
    (below : value.Below heap.size) : heap'.Nested limit value ↔ heap.Nested limit value := by
  induction limit generalizing value with
  | zero => rfl
  | succ limit ih =>
      cases value with
      | table addr =>
          rw [Nested, Nested, grown.tables addr below]
          refine forall₂_congr fun entry isEntry => ?_
          obtain ⟨_, keyBelow, valueBelow⟩ := heap.held addr entry isEntry
          rw [ih keyBelow, ih valueBelow]
      | _ => rfl

theorem plain_iff_of_extends (grown : heap.Extends heap') (limit : Nat) {value : Value}
    (below : value.Below heap.size) : heap'.Plain limit value ↔ heap.Plain limit value := by
  induction limit generalizing value with
  | zero => rfl
  | succ limit ih =>
      cases value with
      | table addr =>
          rw [Plain, Plain, grown.tables addr below]
          refine forall₂_congr fun entry isEntry => ?_
          rw [ih (heap.held addr entry isEntry).value]
      | _ => rfl

theorem nested_of_scalar {value : Value} (scalar : value.IsScalar) (limit : Nat) :
    heap.Nested limit value := by
  cases limit with
  | zero => exact scalar
  | succ limit =>
      cases value with
      | table _ => exact absurd scalar id
      | _ => exact scalar

/-- A value is part of another one, so many tables deep, as a key or under one. -/
inductive Within (heap : Heap) : Nat → Value → Value → Prop
  | self (value : Value) : heap.Within 0 value value
  | entry {addr depth : Nat} {entry : Sigma fun _ : Value => Value} {part inner : Value}
      (isEntry : entry ∈ (heap.tables addr).entries) (isPart : part = entry.1 ∨ part = entry.2)
      (within : heap.Within depth part inner) : heap.Within (depth + 1) (.table addr) inner

theorem Within.trans {depth depth' : Nat} {value part inner : Value}
    (first : heap.Within depth value part) (second : heap.Within depth' part inner) :
    heap.Within (depth + depth') value inner := by
  induction first with
  | self value => rwa [Nat.zero_add]
  | entry isEntry isPart _ ih =>
      rw [Nat.add_right_comm]
      exact .entry isEntry isPart (ih second)

/-- A table that holds itself is found at any depth. -/
theorem Within.repeated {depth addr : Nat}
    (cycle : heap.Within (depth + 1) (.table addr) (.table addr)) (times : Nat) :
    heap.Within ((depth + 1) * times) (.table addr) (.table addr) := by
  induction times with
  | zero => exact .self _
  | succ times ih => exact ih.trans cycle

theorem nested_iff_within (limit : Nat) {value : Value} :
    heap.Nested limit value ↔ ∀ depth inner, heap.Within depth value inner →
      inner.IsScalar ∨ inner.IsTable ∧ depth < limit := by
  induction limit generalizing value with
  | zero =>
      constructor
      · intro scalar depth inner within
        cases within with
        | self => exact Or.inl scalar
        | entry _ _ _ => exact absurd scalar id
      · intro allowed
        exact (allowed 0 value (.self value)).resolve_right fun table =>
          absurd table.2 (Nat.not_lt_zero 0)
  | succ limit ih =>
      constructor
      · intro nested depth inner within
        cases within with
        | self =>
            cases value with
            | table addr => exact Or.inr ⟨trivial, Nat.succ_pos limit⟩
            | _ => exact Or.inl nested
        | @entry addr depth entry part inner isEntry isPart within =>
            obtain ⟨keyNested, valueNested⟩ := nested entry isEntry
            have partNested : heap.Nested limit part := by
              rcases isPart with rfl | rfl
              · exact keyNested
              · exact valueNested
            exact (ih.mp partNested depth inner within).imp_right fun table =>
              ⟨table.1, Nat.succ_lt_succ table.2⟩
      · intro allowed
        have fromPart : ∀ addr, value = .table addr →
            ∀ entry ∈ (heap.tables addr).entries, ∀ part, part = entry.1 ∨ part = entry.2 →
              heap.Nested limit part := by
          rintro addr rfl entry isEntry part isPart
          refine ih.mpr fun depth inner within => ?_
          exact (allowed (depth + 1) inner (.entry isEntry isPart within)).imp_right fun table =>
            ⟨table.1, Nat.lt_of_succ_lt_succ table.2⟩
        cases value with
        | table addr =>
            exact fun entry isEntry => ⟨fromPart addr rfl entry isEntry _ (Or.inl rfl),
              fromPart addr rfl entry isEntry _ (Or.inr rfl)⟩
        | nil | other _ _ => exact ((allowed 0 _ (.self _)).resolve_right And.left).elim
        | _ => trivial

theorem plain_of_within (limit : Nat) {value : Value} (nested : heap.Nested limit value)
    (scalarKeys : ∀ depth addr, heap.Within depth value (.table addr) →
      ∀ entry ∈ (heap.tables addr).entries, entry.1.IsScalar) : heap.Plain limit value := by
  induction limit generalizing value with
  | zero => exact nested
  | succ limit ih =>
      cases value with
      | table addr =>
          intro entry isEntry
          refine ⟨scalarKeys 0 addr (.self _) entry isEntry, ih (nested entry isEntry).2 ?_⟩
          intro depth place within
          exact scalarKeys (depth + 1) place (.entry isEntry (Or.inr rfl) within)
      | _ => exact nested

/-- What a path leads to behind an assignment, under the assigned key. -/
theorem lookup_set_key {place : Nat} {key value : Value}
    {held : Held heap.size ⟨key, value⟩}
    (apart : ∀ path, heap.lookup value path ≠ some (.table place)) (path : List Value) :
    (heap.set place key value held).lookup (.table place) (key :: path) =
      heap.lookup value path := by
  rw [lookup_table, set_tables_self, AList.lookup_insert, Option.bind_some]
  refine lookup_congr path fun part addr isFound => Function.update_of_ne ?_ _ _
  rintro rfl
  exact apart part isFound

theorem lookup_set_other {place : Nat} {key value other : Value}
    {held : Held heap.size ⟨key, value⟩} (isOther : other ≠ key)
    (apart : ∀ path, heap.lookup (.table place) (other :: path) ≠ some (.table place))
    (path : List Value) :
    (heap.set place key value held).lookup (.table place) (other :: path) =
      heap.lookup (.table place) (other :: path) := by
  rw [lookup_table, lookup_table, set_tables_self, AList.lookup_insert_ne isOther]
  refine Option.bind_congr fun next isNext => ?_
  refine lookup_congr path fun part addr isFound => Function.update_of_ne ?_ _ _
  rintro rfl
  refine apart part ?_
  rw [lookup_table, isNext]
  exact isFound

/-- A copy on a heap with more tables: where the keys are scalars it holds the same as the
value, all its tables are new, and none of them is at two places of it. -/
structure IsCopy (heap heap' : Heap) (limit : Nat) (value copy : Value) : Prop where
  grown : heap.Extends heap'
  shape : copy.shape = value.shape
  same : heap.Plain limit value → ∀ path,
    (heap'.lookup copy path).map Value.shape = (heap.lookup value path).map Value.shape
  fresh : ∀ path addr, heap'.lookup copy path = some (.table addr) → heap.size ≤ addr
  once : ∀ path path' addr, heap'.lookup copy path = some (.table addr) →
    heap'.lookup copy path' = some (.table addr) → path = path'

theorem isCopy_of_scalar (heap : Heap) (limit : Nat) {value : Value} (scalar : value.IsScalar) :
    IsCopy heap heap limit value value := by
  have noTable : ∀ path addr, heap.lookup value path ≠ some (.table addr) := by
    intro path addr isFound
    cases path with
    | nil =>
        rw [lookup_nil, Option.some.injEq] at isFound
        subst isFound
        exact scalar
    | cons key path => exact nomatch (lookup_scalar scalar key path).symm.trans isFound
  exact ⟨.refl heap, rfl, fun _ _ => rfl,
    fun path addr isFound => absurd isFound (noTable path addr),
    fun path _ addr isFound _ => absurd isFound (noTable path addr)⟩

/-- The table at the target has copies of some entries of another one. -/
structure Copying (heap heap' : Heap) (limit target : Nat)
    (done : List (Sigma fun _ : Value => Value)) : Prop where
  grown : heap.Extends heap'
  isNew : heap.size ≤ target
  below : target < heap'.size
  same : (∀ entry ∈ done, entry.1.IsScalar ∧ heap.Plain limit entry.2) → ∀ key path,
    (heap'.lookup (.table target) (key :: path)).map Value.shape =
      ((done.dlookup key).bind fun value => heap.lookup value path).map Value.shape
  fresh : ∀ path addr, heap'.lookup (.table target) path = some (.table addr) → heap.size ≤ addr
  once : ∀ path path' addr, heap'.lookup (.table target) path = some (.table addr) →
    heap'.lookup (.table target) path' = some (.table addr) → path = path'

theorem copying_create (heap : Heap) (limit : Nat) :
    Copying heap heap.create limit heap.size [] := by
  have empty : ∀ key path, heap.create.lookup (.table heap.size) (key :: path) = none := by
    intro key path
    rw [lookup_table, create_tables_self, AList.lookup_empty, Option.bind_none]
  have onlyTable : ∀ path addr, heap.create.lookup (.table heap.size) path = some (.table addr) →
      path = [] ∧ heap.size = addr := by
    intro path addr isFound
    cases path with
    | nil => exact ⟨rfl, Value.table.inj (Option.some.inj isFound)⟩
    | cons key path => exact nomatch (empty key path).symm.trans isFound
  refine ⟨⟨Nat.le_succ _, fun addr below => Function.update_of_ne below.ne _ _⟩, le_refl _,
    Nat.lt_succ_self _, fun _ key path => ?_, fun path addr isFound => ?_,
    fun path path' addr isFound isFound' => ?_⟩
  · rw [empty]
    rfl
  · exact (onlyTable path addr isFound).2.le
  · rw [(onlyTable path addr isFound).1, (onlyTable path' addr isFound').1]

section Step

variable {heap₁ heap₂ : Heap} {limit target : Nat}
  {done : List (Sigma fun _ : Value => Value)} {entry : Sigma fun _ : Value => Value}
  {key value : Value}

section Assigned

variable (copying : Copying heap heap' limit target done)
  (keyCopy : IsCopy heap' heap₁ limit entry.1 key)
  (valueCopy : IsCopy heap₁ heap₂ limit entry.2 value)
  (held : Held heap₂.size ⟨key, value⟩)
include copying keyCopy valueCopy

/-- The target is older than the copy of the value. -/
theorem Copying.not_mem_value (path : List Value) :
    heap₂.lookup value path ≠ some (.table target) := by
  intro isTarget
  have before : target < heap₁.size := lt_of_lt_of_le copying.below keyCopy.grown.size
  exact absurd (valueCopy.fresh path target isTarget) (not_le.mpr before)

theorem Copying.lookup_other {other : Value} (isOther : other ≠ key) (path : List Value) :
    (heap₂.set target key value held).lookup (.table target) (other :: path) =
      heap'.lookup (.table target) (other :: path) := by
  have unchanged : ∀ path,
      heap₂.lookup (.table target) path = heap'.lookup (.table target) path :=
    (keyCopy.grown.trans valueCopy.grown).lookup copying.below
  rw [lookup_set_other isOther, unchanged]
  intro part isTarget
  rw [unchanged] at isTarget
  exact nomatch copying.once (other :: part) [] target isTarget rfl

/-- A table of the target is one of the copy of the value, or was there before. -/
theorem Copying.found_cases {path : List Value} {addr : Nat}
    (isFound : (heap₂.set target key value held).lookup (.table target) path =
      some (.table addr)) :
    (∃ rest, path = key :: rest ∧ heap₂.lookup value rest = some (.table addr)) ∨
      heap'.lookup (.table target) path = some (.table addr) := by
  cases path with
  | nil => exact Or.inr isFound
  | cons next path =>
      by_cases sameNext : next = key
      · subst sameNext
        rw [lookup_set_key (copying.not_mem_value keyCopy valueCopy)] at isFound
        exact Or.inl ⟨path, rfl, isFound⟩
      · rw [copying.lookup_other keyCopy valueCopy held sameNext] at isFound
        exact Or.inr isFound

/-- The tables of the copy of the value are newer than those that were there. -/
theorem Copying.lookup_differ {path path' : List Value} {addr : Nat}
    (isFound : heap₂.lookup value path = some (.table addr)) :
    heap'.lookup (.table target) path' ≠ some (.table addr) := by
  intro isFound'
  have old : (Value.table addr).Below heap'.size :=
    @lookup_below heap' path' (.table target) _ copying.below isFound'
  exact absurd (valueCopy.fresh path addr isFound)
    (not_le.mpr (lt_of_lt_of_le old keyCopy.grown.size))

theorem Copying.step_same (valueOld : entry.2.Below heap.size) (notDone : entry.1 ∉ done.keys)
    (scalarKeys : ∀ other ∈ done ++ [entry], other.1.IsScalar ∧ heap.Plain limit other.2)
    (next : Value) (path : List Value) :
    ((heap₂.set target key value held).lookup (.table target) (next :: path)).map Value.shape =
      (((done ++ [entry]).dlookup next).bind fun value => heap.lookup value path).map
        Value.shape := by
  obtain ⟨scalarDone, scalar, plain⟩ :=
    (List.forall_mem_append.trans (and_congr_right' List.forall_mem_singleton)).mp scalarKeys
  have sameKey : key = entry.1 :=
    (Value.eq_or_isTable keyCopy.shape).resolve_right fun tables =>
      tables.2.not_isScalar scalar
  have grown₁ := copying.grown.trans keyCopy.grown
  rw [List.dlookup_append]
  by_cases sameNext : next = key
  · subst sameNext
    have plain₁ := (plain_iff_of_extends grown₁ limit valueOld).mpr plain
    rw [lookup_set_key (copying.not_mem_value keyCopy valueCopy), valueCopy.same plain₁,
      grown₁.lookup valueOld, sameKey, List.dlookup_eq_none.mpr notDone, Option.none_or]
    obtain ⟨_, _⟩ := entry
    rw [List.dlookup_cons_eq, Option.bind_some]
  · rw [copying.lookup_other keyCopy valueCopy held sameNext, copying.same scalarDone,
      List.dlookup_cons_ne _ entry (sameKey ▸ sameNext), List.dlookup_nil, Option.or_none]

/-- An entry is copied: its key, then its value, and then it is assigned. -/
theorem Copying.step (valueOld : entry.2.Below heap.size) (notDone : entry.1 ∉ done.keys) :
    Copying heap (heap₂.set target key value held) limit target (done ++ [entry]) := by
  have grown₂ := keyCopy.grown.trans valueCopy.grown
  have grown := copying.grown.trans grown₂
  refine ⟨⟨grown.size, fun addr below => ?_⟩, copying.isNew,
    lt_of_lt_of_le copying.below grown₂.size,
    copying.step_same keyCopy valueCopy held valueOld notDone, fun path addr isFound => ?_,
    fun path path' addr isFound isFound' => ?_⟩
  · rw [← grown.tables addr below]
    exact Function.update_of_ne (lt_of_lt_of_le below copying.isNew).ne _ _
  · rcases copying.found_cases keyCopy valueCopy held isFound with ⟨rest, -, inValue⟩ | isOld
    · exact (copying.grown.trans keyCopy.grown).size.trans (valueCopy.fresh rest addr inValue)
    · exact copying.fresh path addr isOld
  · rcases copying.found_cases keyCopy valueCopy held isFound with
      ⟨rest, rfl, inValue⟩ | isOld <;>
    rcases copying.found_cases keyCopy valueCopy held isFound' with
      ⟨rest', rfl, inValue'⟩ | isOld'
    · rw [valueCopy.once rest rest' addr inValue inValue']
    · exact absurd isOld' (copying.lookup_differ keyCopy valueCopy inValue)
    · exact absurd isOld (copying.lookup_differ keyCopy valueCopy inValue')
    · exact copying.once path path' addr isOld isOld'

end Assigned

/-- A table with copies of all entries is a copy of the table. -/
theorem Copying.isCopy {source : Nat}
    (copying : Copying heap heap' limit target (heap.tables source).entries) :
    IsCopy heap heap' (limit + 1) (.table source) (.table target) := by
  refine ⟨copying.grown, rfl, fun plain path => ?_, copying.fresh, copying.once⟩
  cases path with
  | nil => rfl
  | cons key path => exact copying.same plain key path

end Step

end Heap

end LuaHeap

end LuaServer
