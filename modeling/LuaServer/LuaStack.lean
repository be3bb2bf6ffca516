import LuaServer.LuaHeap

/-!
# The stack of Lua

A C function of Lua works on a stack of values, which are named by an index from the bottom or
from the top.  Tables are made, visited entry by entry and assigned to through the stack, so
what an operation does is said of the values that it finds on top.
-/

namespace LuaServer

open LuaHeap

/-- The values of a stack from the bottom, with the heap their tables are on. -/
structure LuaState where
  heap : Heap
  stack : List Value
  below : ∀ value ∈ stack, value.Below heap.size

/-- The value at an index, which counts from the bottom, or from the top when it is negative. -/
def stackValue (stack : List Value) (idx : Int) : Option Value :=
  if 0 < idx then stack[(idx - 1).toNat]?
  else if idx < 0 ∧ 0 ≤ stack.length + idx then stack[(stack.length + idx).toNat]?
  else none

theorem mem_of_stackValue {stack : List Value} {idx : Int} {value : Value}
    (isValue : stackValue stack idx = some value) : value ∈ stack := by
  rw [stackValue] at isValue
  split at isValue
  · exact List.mem_of_getElem? isValue
  · split at isValue
    · exact List.mem_of_getElem? isValue
    · exact nomatch isValue

def LUA_TNONE : Int := -1
def LUA_TNIL : Int := 0
def LUA_TBOOLEAN : Int := 1
def LUA_TLIGHTUSERDATA : Int := 2
def LUA_TNUMBER : Int := 3
def LUA_TSTRING : Int := 4
def LUA_TTABLE : Int := 5
def LUA_TFUNCTION : Int := 6
def LUA_TUSERDATA : Int := 7
def LUA_TTHREAD : Int := 8

def LuaHeap.Value.type : Value → Int
  | .nil => LUA_TNIL
  | .boolean _ => LUA_TBOOLEAN
  | .integer _ | .number _ => LUA_TNUMBER
  | .string _ => LUA_TSTRING
  | .table _ => LUA_TTABLE
  | .other .lightuserdata _ => LUA_TLIGHTUSERDATA
  | .other .function _ => LUA_TFUNCTION
  | .other .userdata _ => LUA_TUSERDATA
  | .other .thread _ => LUA_TTHREAD

/-- The entry behind a key. -/
def nextEntry (entries : List (Sigma fun _ : Value => Value)) (key : Value) :
    Except String (Option (Sigma fun _ : Value => Value)) :=
  if key = .nil then .ok entries.head?
  else
    match entries.dropWhile fun entry => entry.1 ≠ key with
    | [] => .error "invalid key to 'next'"
    | _ :: rest => .ok rest.head?

theorem mem_of_nextEntry {entries : List (Sigma fun _ : Value => Value)} {key : Value}
    {entry : Sigma fun _ : Value => Value} (isNext : nextEntry entries key = .ok (some entry)) :
    entry ∈ entries := by
  rw [nextEntry] at isNext
  split at isNext
  · exact List.mem_of_head? (Except.ok.inj isNext)
  · split at isNext
    · exact nomatch isNext
    next dropped =>
      have isRest := List.mem_of_head? (Except.ok.inj isNext)
      exact (List.dropWhile_sublist _).mem (dropped ▸ List.mem_cons_of_mem _ isRest)

namespace LuaState

variable (L : LuaState)

def gettop : Int := L.stack.length

def value (idx : Int) : Value :=
  (stackValue L.stack idx).getD .nil

def type (idx : Int) : Int :=
  ((stackValue L.stack idx).map Value.type).getD LUA_TNONE

theorem value_below (idx : Int) : (L.value idx).Below L.heap.size := by
  rw [value]
  cases isValue : stackValue L.stack idx with
  | none => trivial
  | some value => exact L.below value (mem_of_stackValue isValue)

theorem push_below {value : Value} (below : value.Below L.heap.size) :
    ∀ other ∈ L.stack ++ [value], other.Below L.heap.size :=
  List.forall_mem_append.mpr ⟨L.below, List.forall_mem_singleton.mpr below⟩

def push (value : Value) (below : value.Below L.heap.size) : LuaState where
  heap := L.heap
  stack := L.stack ++ [value]
  below := L.push_below below

def pushnil : LuaState :=
  L.push .nil trivial

def pushvalue (idx : Int) : LuaState :=
  L.push (L.value idx) (L.value_below idx)

theorem pop_below (count : Nat) :
    ∀ value ∈ L.stack.take (L.stack.length - count), value.Below L.heap.size :=
  fun value isMember => L.below value (List.mem_of_mem_take isMember)

def pop (count : Nat) : LuaState where
  heap := L.heap
  stack := L.stack.take (L.stack.length - count)
  below := L.pop_below count

theorem settop_below (count : Nat) :
    ∀ value ∈ (L.stack ++ List.replicate count Value.nil).take count, value.Below L.heap.size := by
  intro value isMember
  rcases List.mem_append.mp (List.mem_of_mem_take isMember) with isOld | isNil
  · exact L.below value isOld
  · rw [List.eq_of_mem_replicate isNil]
    trivial

def settop (count : Nat) : LuaState where
  heap := L.heap
  stack := (L.stack ++ List.replicate count Value.nil).take count
  below := L.settop_below count

theorem createtable_below :
    ∀ value ∈ L.stack ++ [.table L.heap.size], value.Below L.heap.create.size := by
  refine List.forall_mem_append.mpr ⟨fun value isOld => ?_,
    List.forall_mem_singleton.mpr (Nat.lt_succ_self _)⟩
  exact (L.below value isOld).mono (Nat.le_succ _)

def createtable : LuaState where
  heap := L.heap.create
  stack := L.stack ++ [.table L.heap.size]
  below := L.createtable_below

section Entries

variable {addr : Nat} {entry : Sigma fun _ : Value => Value} {key : Value}

theorem next_key_below
    (isNext : nextEntry (L.heap.tables addr).entries (L.value (-1)) = .ok (some entry)) :
    entry.1.Below L.heap.size :=
  (L.heap.held addr entry (mem_of_nextEntry isNext)).key

theorem next_value_below
    (isNext : nextEntry (L.heap.tables addr).entries (L.value (-1)) = .ok (some entry)) :
    entry.2.Below L.heap.size :=
  (L.heap.held addr entry (mem_of_nextEntry isNext)).value

theorem settable_held (isKey : (L.value (-2)).asKey = .ok key) :
    Held L.heap.size ⟨key, L.value (-1)⟩ :=
  ⟨Value.isKey_of_asKey isKey, Value.asKey_below (L.value_below (-2)) isKey, L.value_below (-1)⟩

end Entries

theorem settable_below : ∀ value ∈ L.stack.take (L.stack.length - 2), value.Below L.heap.size :=
  L.pop_below 2

/-- `lua_next`: the key on top is replaced by the entry behind it, or taken away. -/
def next (idx : Int) : Except String (LuaState × Bool) :=
  match L.value idx with
  | .table addr =>
      match isNext : nextEntry (L.heap.tables addr).entries (L.value (-1)) with
      | .error message => .error message
      | .ok none => .ok (L.pop 1, false)
      | .ok (some entry) =>
          .ok (((L.pop 1).push entry.1 (L.next_key_below isNext)).push entry.2
            (L.next_value_below isNext), true)
  | _ => .error "table expected"

/-- `lua_settable`: the key and the value on top are assigned and taken away. -/
def settable (idx : Int) : Except String LuaState :=
  match L.value idx with
  | .table addr =>
      match isKey : (L.value (-2)).asKey with
      | .error message => .error message
      | .ok key =>
          if L.value (-1) = .nil then
            .ok
              { heap := L.heap.erase addr key
                stack := L.stack.take (L.stack.length - 2)
                below := L.settable_below }
          else
            .ok
              { heap := L.heap.set addr key (L.value (-1)) (L.settable_held isKey)
                stack := L.stack.take (L.stack.length - 2)
                below := L.settable_below }
  | _ => .error "table expected"

end LuaState

section Stacks

variable {stack front : List Value} {first second : Value}

theorem stackValue_of_front {idx : Int} {value : Value}
    (isValue : stackValue front idx = some value) (positive : 0 < idx) (back : List Value) :
    stackValue (front ++ back) idx = some value := by
  rw [stackValue, if_pos positive] at isValue ⊢
  obtain ⟨below, _⟩ := List.getElem?_eq_some_iff.mp isValue
  rw [List.getElem?_append_left below]
  exact isValue

theorem stackValue_last : stackValue (front ++ [first]) (-1) = some first := by
  have nonneg : (-1 : Int) < 0 ∧ 0 ≤ ((front ++ [first]).length : Int) + -1 := by
    rw [List.length_append, List.length_singleton]
    omega
  have place : (((front ++ [first]).length : Int) + -1).toNat = front.length := by
    rw [List.length_append, List.length_singleton]
    omega
  rw [stackValue, if_neg (by decide), if_pos nonneg, place, List.getElem?_concat_length]

theorem stackValue_second : stackValue (front ++ [first, second]) (-2) = some first := by
  have nonneg : (-2 : Int) < 0 ∧ 0 ≤ ((front ++ [first, second]).length : Int) + -2 := by
    rw [List.length_append, List.length_cons, List.length_singleton]
    omega
  have place : (((front ++ [first, second]).length : Int) + -2).toNat = front.length := by
    rw [List.length_append, List.length_cons, List.length_singleton]
    omega
  rw [stackValue, if_neg (by decide), if_pos nonneg, place, List.getElem?_append_right (le_refl _),
    Nat.sub_self]
  rfl

theorem stackValue_top : stackValue (front ++ [first]) (front.length + 1) = some first := by
  rw [stackValue, if_pos (by omega), show ((front.length : Int) + 1 - 1).toNat = front.length by
    omega, List.getElem?_concat_length]

/-- An index counts from the bottom as well. -/
theorem stackValue_absolute {idx : Int} {value : Value}
    (isValue : stackValue stack idx = some value) :
    0 < (if idx < 0 then (stack.length : Int) + idx + 1 else idx) ∧
      stackValue stack (if idx < 0 then (stack.length : Int) + idx + 1 else idx) =
        some value := by
  by_cases negative : idx < 0
  · rw [if_pos negative]
    rw [stackValue, if_neg (by omega)] at isValue
    by_cases within : idx < 0 ∧ 0 ≤ (stack.length : Int) + idx
    · rw [if_pos within] at isValue
      refine ⟨by omega, ?_⟩
      rw [stackValue, if_pos (by omega), add_sub_cancel_right]
      exact isValue
    · rw [if_neg within] at isValue
      exact nomatch isValue
  · rw [if_neg negative]
    refine ⟨?_, isValue⟩
    by_contra zero
    rw [stackValue, if_neg zero, if_neg (by omega)] at isValue
    exact nomatch isValue

end Stacks

/-- Behind the entries that were visited comes the next one. -/
theorem nextEntry_append {done rest : List (Sigma fun _ : Value => Value)}
    (noDup : (done ++ rest).NodupKeys) (keys : ∀ entry ∈ done, entry.1.IsKey) :
    nextEntry (done ++ rest) ((done.getLast?.map Sigma.fst).getD .nil) = .ok rest.head? := by
  rcases List.eq_nil_or_concat' done with rfl | ⟨init, last, rfl⟩
  · rfl
  · have isKey : last.1 ≠ .nil := by
      have valid := keys last (List.mem_append_right _ List.mem_cons_self)
      intro isNil
      rw [isNil] at valid
      exact nomatch valid
    have others : ∀ entry ∈ init, decide (entry.1 ≠ last.1) = true := by
      intro entry isEntry
      refine decide_eq_true fun same => ?_
      rw [List.append_assoc, List.NodupKeys, List.keys_append, List.nodup_append] at noDup
      refine noDup.2.2 entry.1 (List.mem_map_of_mem isEntry) last.1 ?_ same
      exact List.mem_map_of_mem List.mem_cons_self
    rw [List.getLast?_concat, Option.map_some, Option.getD_some, nextEntry, if_neg isKey,
      List.append_assoc, List.dropWhile_append_of_pos others, List.singleton_append,
      List.dropWhile_cons_of_neg (by simp)]

section Operations

variable {L : LuaState} {base : List Value} {source : Nat} {idx : Int}

theorem value_of_stackValue {value : Value} (isValue : stackValue L.stack idx = some value) :
    L.value idx = value := by
  rw [LuaState.value, isValue, Option.getD_some]

theorem pop_stack {back : List Value} (stack : L.stack = base ++ back) :
    (L.pop back.length).stack = base := by
  change L.stack.take (L.stack.length - back.length) = base
  rw [stack, List.length_append, Nat.add_sub_cancel, List.take_left]

theorem next_of_none {key : Value} (isTable : stackValue L.stack idx = some (.table source))
    (stack : L.stack = base ++ [key])
    (isLast : nextEntry (L.heap.tables source).entries key = .ok none) :
    L.next idx = .ok (L.pop 1, false) := by
  have isKey : L.value (-1) = key := value_of_stackValue (stack ▸ stackValue_last)
  simp only [LuaState.next, value_of_stackValue isTable]
  split
  next isError => exact nomatch (isKey ▸ isError).symm.trans isLast
  next => rfl
  next isNext => exact nomatch (isKey ▸ isNext).symm.trans isLast

theorem next_of_some {key : Value} {entry : Sigma fun _ : Value => Value}
    (isTable : stackValue L.stack idx = some (.table source)) (stack : L.stack = base ++ [key])
    (isEntry : nextEntry (L.heap.tables source).entries key = .ok (some entry)) :
    ∃ L', L.next idx = .ok (L', true) ∧ L'.heap = L.heap ∧
      L'.stack = base ++ [entry.1, entry.2] := by
  have isKey : L.value (-1) = key := value_of_stackValue (stack ▸ stackValue_last)
  simp only [LuaState.next, value_of_stackValue isTable]
  split
  next isError => exact nomatch (isKey ▸ isError).symm.trans isEntry
  next isLast => exact nomatch (isKey ▸ isLast).symm.trans isEntry
  next other isNext =>
    obtain rfl : other = entry :=
      Option.some.inj (Except.ok.inj ((isKey ▸ isNext).symm.trans isEntry))
    refine ⟨_, rfl, rfl, ?_⟩
    change (L.pop [key].length).stack ++ [other.1] ++ [other.2] = base ++ [other.1, other.2]
    rw [pop_stack stack, List.append_assoc, List.singleton_append]

theorem settable_of_isKey {key value : Value}
    (isTable : stackValue L.stack idx = some (.table source))
    (stack : L.stack = base ++ [key, value]) (isKey : key.IsKey) (notNil : value ≠ .nil) :
    ∃ L' held, L.settable idx = .ok L' ∧ L'.heap = L.heap.set source key value held ∧
      L'.stack = base := by
  have keyAt : L.value (-2) = key := value_of_stackValue (stack ▸ stackValue_second)
  have valueAt : L.value (-1) = value := by
    refine value_of_stackValue (stack ▸ ?_)
    rw [← List.singleton_append, ← List.append_assoc]
    exact stackValue_last
  have isOwn : (L.value (-2)).asKey = .ok key := keyAt ▸ isKey
  subst valueAt
  have held : Held L.heap.size ⟨key, L.value (-1)⟩ :=
    ⟨isKey, keyAt ▸ L.value_below (-2), L.value_below (-1)⟩
  simp only [LuaState.settable, value_of_stackValue isTable]
  split
  next isError => exact nomatch isError.symm.trans isOwn
  next other isOther =>
    obtain rfl : other = key := Except.ok.inj (isOther.symm.trans isOwn)
    rw [if_neg notNil]
    exact ⟨_, held, rfl, rfl, pop_stack stack⟩

end Operations

end LuaServer
