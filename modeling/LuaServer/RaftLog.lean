import LuaServer.ByteStrings
import LuaServer.RingBuffers

/-!
# The log of a raft server

The entries lie in a ring buffer that is doubled when it is full.  Entries come and go at
its back, and are taken off its front when a snapshot has them; the base is the number
of those, so that an entry keeps its index.  The log is a list with a base.
-/

namespace LuaServer

namespace Raft

/-- `raft_entry_t` with the data it points to.  Terms are never negative. -/
structure Entry where
  term : Nat
  id : Int
  type : Int
  data : ByteString
  deriving DecidableEq

/-- What `calloc` leaves. -/
def Entry.zero : Entry := ⟨0, 0, 0, []⟩

/-- `log_private_t` without its callbacks. -/
structure Log where
  size : Nat
  count : Nat
  front : Nat
  back : Nat
  base : Nat
  entries : List Entry
  deriving DecidableEq

/-- The function `mod` of the log. -/
def mod (a b : Int) : Int :=
  let r := a.tmod b
  if r < 0 then r + b else r

/-- `log_alloc`. -/
def logAlloc (initialSize : Nat) : Log where
  size := initialSize
  count := 0
  front := 0
  back := 0
  base := 0
  entries := List.replicate initialSize Entry.zero

/-- `INITIAL_CAPACITY`. -/
def INITIAL_CAPACITY : Nat := 10

/-- `log_new`. -/
def logNew : Log := logAlloc INITIAL_CAPACITY

section Operations

variable (me : Log)

/-- The loop of `__ensurecapacity` from entry `j` on, for `n` entries. -/
def copyEntries : Nat → Nat → List Entry
  | 0, _ => []
  | n + 1, j =>
      let j := if j = me.size then 0 else j
      me.entries.getD j Entry.zero :: copyEntries n (j + 1)

/-- `__ensurecapacity`. -/
def ensurecapacity : Log :=
  if me.count < me.size then me
  else
    { me with
      size := me.size * 2
      entries := copyEntries me me.count me.front ++
        List.replicate (me.size * 2 - me.count) Entry.zero
      front := 0
      back := me.count }

/-- `log_append_entry`; the callbacks see the entry before it is counted. -/
def logAppendEntry (ety : Entry) : Log :=
  let me := ensurecapacity me
  { me with
    entries := me.entries.set me.back ety
    count := me.count + 1
    back := (me.back + 1) % me.size }

/-- `log_get_from_idx` with the entries it points to, where the null pointer is none of
them.  The assertion fails for index zero. -/
def logGetFromIdx (idx : Nat) : Option (Option (List Entry)) :=
  if idx = 0 then none
  else if me.base + me.count < idx ∨ idx ≤ me.base then some none
  else
    let i := (me.front + (idx - 1) - me.base) % me.size
    let logsTillEndOfLog := if i < me.back then me.back - i else me.size - i
    some (some ((me.entries.drop i).take logsTillEndOfLog))

/-- `log_get_at_idx`. -/
def logGetAtIdx (idx : Nat) : Option Entry :=
  if idx = 0 then none
  else if me.base + me.count < idx ∨ idx ≤ me.base then none
  else me.entries[(me.front + (idx - 1) - me.base) % me.size]?

/-- `log_count`. -/
def logCount : Nat := me.count

/-- `log_get_current_idx`. -/
def logGetCurrentIdx : Nat := logCount me + me.base

/-- `log_get_base`. -/
def logGetBase : Nat := me.base

/-- The loop of `log_delete` with the entries it pops and their indexes, which runs as
often as there are entries at most. -/
def popEntries (idx : Nat) : Nat → Log → Log × List (Entry × Nat)
  | 0, me => (me, [])
  | n + 1, me =>
      if idx ≤ me.base + me.count ∧ me.count ≠ 0 then
        let idxTmp := me.base + me.count
        let back := (mod (me.back - 1) me.size).toNat
        let (after, popped) := popEntries idx n { me with back := back, count := me.count - 1 }
        (after, (me.entries.getD back Entry.zero, idxTmp) :: popped)
      else (me, [])

/-- `log_delete` with the entries the callbacks see. -/
def logDelete (idx : Nat) : Int × Log × List (Entry × Nat) :=
  if idx = 0 then (-1, me, [])
  else
    let idx := if idx < me.base then me.base else idx
    (0, popEntries idx me.count me)

/-- `log_poll`. -/
def logPoll : Option (Entry × Log) :=
  if me.count = 0 then none
  else
    some (me.entries.getD me.front Entry.zero,
      { me with front := (me.front + 1) % me.size, count := me.count - 1, base := me.base + 1 })

/-- `log_clear`. -/
def logClear : Log := { me with count := 0, back := 0, front := 0, base := 0 }

/-- `log_load_from_snapshot`: the callback for the entries that go is missing. -/
def logLoadFromSnapshot (idx : Nat) : Int × Log := (0, { logClear me with base := idx })

/-- `log_empty`. -/
def logEmpty : Log := { me with front := 0, back := 0, count := 0 }

/-- `log_peektail`. -/
def logPeektail : Option Entry :=
  if me.count = 0 then none
  else if me.back = 0 then me.entries[me.size - 1]?
  else me.entries[me.back - 1]?

/-- The entries in the order of their indexes. -/
def Log.toList : List Entry := RingBuffer.contents Entry.zero me.entries me.front me.count

/-- The back is where the front and the count say. -/
structure Log.WellFormed : Prop where
  positive : 0 < me.size
  room : me.count ≤ me.size
  front : me.front < me.size
  back : me.back = (me.front + me.count) % me.size
  length : me.entries.length = me.size

end Operations

section Rules

variable {me : Log}

theorem wellFormed_logAlloc {initialSize : Nat} (positive : 0 < initialSize) :
    (logAlloc initialSize).WellFormed where
  positive := positive
  room := Nat.zero_le _
  front := positive
  back := (Nat.zero_mod _).symm
  length := List.length_replicate

@[simp]
theorem toList_logAlloc (initialSize : Nat) : (logAlloc initialSize).toList = [] := rfl

@[simp]
theorem length_toList : me.toList.length = me.count := RingBuffer.length_contents

theorem length_copyEntries (n j : Nat) : (copyEntries me n j).length = n := by
  induction n generalizing j with
  | zero => rfl
  | succ n ih => rw [copyEntries, List.length_cons, ih]

/-- The copy starts again at the start of the array. -/
theorem copyEntries_eq {n j : Nat} (bound : j ≤ me.size) (positive : 0 < me.size) :
    copyEntries me n j = (List.range n).map fun k =>
      me.entries.getD ((j + k) % me.size) Entry.zero := by
  induction n generalizing j with
  | zero => rfl
  | succ n ih =>
      have wrap : (if j = me.size then 0 else j) = j % me.size := by
        split
        · next full => rw [full, Nat.mod_self]
        · next other => rw [Nat.mod_eq_of_lt (by omega)]
      have inside := Nat.mod_lt j positive
      rw [copyEntries, wrap, ih (by omega), List.range_succ_eq_map, List.map_cons, List.map_map,
        Nat.add_zero]
      congr 1
      refine List.map_congr_left fun k _ => ?_
      rw [Function.comp_apply, Nat.add_assoc, Nat.mod_add_mod, Nat.add_comm 1 k]

theorem Log.WellFormed.ensurecapacity (formed : me.WellFormed) :
    (Raft.ensurecapacity me).WellFormed ∧
      (Raft.ensurecapacity me).count < (Raft.ensurecapacity me).size ∧
        (Raft.ensurecapacity me).toList = me.toList ∧
          (Raft.ensurecapacity me).base = me.base ∧ (Raft.ensurecapacity me).count = me.count := by
  by_cases short : me.count < me.size
  · rw [Raft.ensurecapacity, if_pos short]
    exact ⟨formed, short, rfl, rfl, rfl⟩
  · have full : me.count = me.size := le_antisymm formed.room (not_lt.mp short)
    have positive := formed.positive
    rw [Raft.ensurecapacity, if_neg short]
    have copied : copyEntries me me.count me.front = me.toList := by
      rw [copyEntries_eq formed.front.le positive, Log.toList, RingBuffer.contents,
        formed.length]
    have length : (copyEntries me me.count me.front ++
        List.replicate (me.size * 2 - me.count) Entry.zero).length = me.size * 2 := by
      rw [List.length_append, length_copyEntries, List.length_replicate]
      omega
    refine ⟨⟨by simp; omega, by simp; omega, by simp; omega, ?_, length⟩, by simp; omega, ?_,
      rfl, rfl⟩
    · simp only [Nat.zero_add]
      exact (Nat.mod_eq_of_lt (by omega)).symm
    · have straight : 0 + me.count ≤ (copyEntries me me.count me.front ++
          List.replicate (me.size * 2 - me.count) Entry.zero).length := by
        rw [length]
        omega
      refine (RingBuffer.contents_eq_drop_take straight).trans ?_
      rw [List.drop_zero, List.take_left' (length_copyEntries _ _), copied]

theorem Log.WellFormed.append (formed : me.WellFormed) (ety : Entry) :
    (logAppendEntry me ety).WellFormed ∧
      (logAppendEntry me ety).toList = me.toList ++ [ety] ∧
        (logAppendEntry me ety).base = me.base := by
  obtain ⟨wide, room, same, base, -⟩ := formed.ensurecapacity
  refine ⟨⟨wide.positive, room, wide.front, ?_, ?_⟩, ?_, base⟩
  · simp only [logAppendEntry]
    rw [wide.back, Nat.mod_add_mod, Nat.add_assoc]
  · simp only [logAppendEntry, List.length_set]
    exact wide.length
  · have written : RingBuffer.contents Entry.zero _ (Raft.ensurecapacity me).front _ = _ :=
      RingBuffer.contents_set (wide.length.symm ▸ room) ety
    rw [wide.length, ← wide.back] at written
    rw [← same]
    exact written

theorem Log.WellFormed.logGetAtIdx (formed : me.WellFormed) (idx : Nat) :
    Raft.logGetAtIdx me idx =
      if idx ≤ me.base then none else me.toList[idx - me.base - 1]? := by
  by_cases before : idx ≤ me.base
  · rw [if_pos before, Raft.logGetAtIdx]
    split
    · rfl
    · rw [if_pos (Or.inr before)]
  · rw [if_neg before, Raft.logGetAtIdx, if_neg (by omega)]
    by_cases behind : me.base + me.count < idx
    · rw [if_pos (Or.inl behind), List.getElem?_eq_none (by rw [length_toList]; omega)]
    · have position : me.front + (idx - 1) - me.base = me.front + (idx - me.base - 1) := by omega
      have inside := Nat.mod_lt (me.front + (idx - me.base - 1)) formed.positive
      rw [if_neg (by omega), position, Log.toList, RingBuffer.getElem?_contents (by omega),
        formed.length, List.getD_eq_getElem _ _ (by rw [formed.length]; exact inside),
        List.getElem?_eq_getElem]

/-- Where the entries from an index on end in the array. -/
theorem Log.WellFormed.tillEnd (formed : me.WellFormed) {k : Nat} (inside : k < me.count) :
    let i := (me.front + k) % me.size
    let n := if i < me.back then me.back - i else me.size - i
    0 < n ∧ i + n ≤ me.size ∧ n ≤ me.count - k ∧
      (me.front + me.count ≤ me.size → n = me.count - k) := by
  intro i n
  have positive := formed.positive
  have front := formed.front
  have iBound : i < me.size := Nat.mod_lt _ positive
  have back : me.back = (i + (me.count - k)) % me.size := by
    rw [formed.back, Nat.mod_add_mod]
    congr 1
    omega
  have room := formed.room
  have straight : me.front + me.count ≤ me.size → i = me.front + k :=
    fun fits => Nat.mod_eq_of_lt (by omega)
  by_cases short : i + (me.count - k) < me.size
  · rw [Nat.mod_eq_of_lt short] at back
    have n_eq : n = me.count - k := by
      rw [show n = if i < me.back then me.back - i else me.size - i from rfl, if_pos (by omega)]
      omega
    exact ⟨by omega, by omega, n_eq.le, fun _ => n_eq⟩
  · rw [Nat.mod_eq_sub_mod (not_lt.mp short), Nat.mod_eq_of_lt (by omega)] at back
    have n_eq : n = me.size - i := by
      rw [show n = if i < me.back then me.back - i else me.size - i from rfl, if_neg (by omega)]
    exact ⟨by omega, by omega, by omega, fun fits => by rw [n_eq, straight fits]; omega⟩

/-- The entries from an index on are those up to the end of the array, and all of them
when the log does not go on at its start. -/
theorem Log.WellFormed.logGetFromIdx (formed : me.WellFormed) {idx : Nat}
    (after : me.base < idx) (le : idx ≤ me.base + me.count) :
    ∃ entries, Raft.logGetFromIdx me idx = some (some entries) ∧ entries ≠ [] ∧
      entries <+: me.toList.drop (idx - me.base - 1) ∧
        (me.front + me.count ≤ me.size → entries = me.toList.drop (idx - me.base - 1)) := by
  have inside : idx - me.base - 1 < me.count := by omega
  have position : me.front + (idx - 1) - me.base = me.front + (idx - me.base - 1) := by omega
  obtain ⟨some_, fits, short, whole⟩ := formed.tillEnd inside
  generalize nEq : (if (me.front + (idx - me.base - 1)) % me.size < me.back then
    me.back - (me.front + (idx - me.base - 1)) % me.size else
      me.size - (me.front + (idx - me.base - 1)) % me.size) = n at some_ fits short whole
  have dropped : me.toList.drop (idx - me.base - 1) = RingBuffer.contents Entry.zero me.entries
      ((me.front + (idx - me.base - 1)) % me.size) (me.count - (idx - me.base - 1)) := by
    rw [Log.toList, RingBuffer.drop_contents, formed.length]
  have read : (me.entries.drop ((me.front + (idx - me.base - 1)) % me.size)).take n =
      RingBuffer.contents Entry.zero me.entries ((me.front + (idx - me.base - 1)) % me.size) n :=
    (RingBuffer.contents_eq_drop_take (by rw [formed.length]; exact fits)).symm
  refine ⟨RingBuffer.contents Entry.zero me.entries
    ((me.front + (idx - me.base - 1)) % me.size) n, ?_, ?_, ?_, fun straight => ?_⟩
  · rw [Raft.logGetFromIdx, if_neg (by omega), if_neg (by omega), position]
    simp only [nEq]
    rw [read]
  · exact List.ne_nil_of_length_pos (by rw [RingBuffer.length_contents]; exact some_)
  · rw [dropped, ← RingBuffer.take_contents short]
    exact List.take_prefix _ _
  · rw [dropped, whole straight]

theorem mod_eq_emod (a : Int) {b : Int} (positive : 0 < b) : mod a b = a % b := by
  have emod := Int.emod_nonneg a positive.ne'
  have lt := Int.emod_lt_of_pos a positive
  have key : a % b = a.tmod b + (if 0 ≤ a ∨ b ∣ a then 0 else b.natAbs : Nat) :=
    Int.emod_eq_tmod
  have inlined : mod a b = if a.tmod b < 0 then a.tmod b + b else a.tmod b := rfl
  rw [inlined]
  by_cases whole : 0 ≤ a ∨ b ∣ a
  · rw [if_pos whole] at key
    rw [if_neg (by omega)]
    omega
  · rw [if_neg whole] at key
    rw [if_pos (by omega)]
    omega

/-- One entry less at the back. -/
theorem Log.WellFormed.pop (formed : me.WellFormed) {n : Nat} (count : me.count = n + 1) :
    let back := (mod (me.back - 1) me.size).toNat
    let after : Log := { me with back := back, count := me.count - 1 }
    after.WellFormed ∧ me.toList = after.toList ++ [me.entries.getD back Entry.zero] := by
  intro back after
  have positive := formed.positive
  have room := formed.room
  have before : back = (me.front + n) % me.size := by
    have last := Nat.mod_lt (me.front + n) positive
    have backEq : me.back = ((me.front + n) % me.size + 1) % me.size := by
      rw [formed.back, count, Nat.mod_add_mod, Nat.add_assoc]
    rw [show back = (mod (me.back - 1) me.size).toNat from rfl,
      mod_eq_emod _ (by omega : (0 : Int) < me.size)]
    by_cases wraps : (me.front + n) % me.size + 1 = me.size
    · rw [wraps, Nat.mod_self] at backEq
      rw [backEq, ← Int.add_emod_right, Int.emod_eq_of_lt (by omega) (by omega)]
      omega
    · rw [Nat.mod_eq_of_lt (by omega)] at backEq
      rw [backEq, Int.emod_eq_of_lt (by omega) (by omega)]
      omega
  refine ⟨⟨positive, ?_, formed.front, ?_, formed.length⟩, ?_⟩
  · simp only [after]
    omega
  · simp only [after, before, count, Nat.add_sub_cancel]
  · rw [Log.toList, count, RingBuffer.contents_succ, formed.length, ← before]
    simp only [Log.toList, after, count, Nat.add_sub_cancel]

/-- What is popped from an index on: the entries with their indexes, the last one first. -/
theorem Log.WellFormed.popEntries (formed : me.WellFormed) {idx n : Nat} (count : me.count = n) :
    let (after, popped) := Raft.popEntries idx n me
    after.WellFormed ∧ after.base = me.base ∧ after.front = me.front ∧
      after.toList = me.toList.take (idx - me.base - 1) ∧
        popped = ((me.toList.zipIdx (me.base + 1)).drop (idx - me.base - 1)).reverse := by
  induction n generalizing me with
  | zero =>
      have empty : me.toList = [] := List.eq_nil_of_length_eq_zero (by rw [length_toList, count])
      simp [Raft.popEntries, formed, empty]
  | succ n ih =>
      by_cases inside : idx ≤ me.base + me.count
      · obtain ⟨formed', split⟩ := formed.pop count
        have rest := ih formed' (by simp only [count, Nat.add_sub_cancel])
        rw [Raft.popEntries, if_pos ⟨inside, by omega⟩]
        obtain ⟨wellFormed, base, front, list, popped⟩ := rest
        have short : idx - me.base - 1 ≤ (Log.toList { me with
            back := (mod (me.back - 1) me.size).toNat, count := me.count - 1 }).length := by
          rw [length_toList]
          simp only
          omega
        refine ⟨wellFormed, base, front, ?_, ?_⟩
        · rw [list, split, List.take_append_of_le_length short]
        · rw [split, List.zipIdx_append, List.drop_append_of_le_length (by simpa using short),
            List.reverse_append, popped]
          simp [count, Nat.add_comm, Nat.add_left_comm]
      · rw [Raft.popEntries, if_neg (by omega)]
        have all : me.count ≤ idx - me.base - 1 := by omega
        refine ⟨formed, rfl, rfl, ?_, ?_⟩
        · rw [List.take_of_length_le (by rwa [length_toList])]
        · rw [List.drop_eq_nil_of_le (by simpa using all), List.reverse_nil]

theorem Log.WellFormed.cleared (formed : me.WellFormed) (base : Nat) :
    { me with count := 0, back := 0, front := 0, base := base : Log }.WellFormed where
  positive := formed.positive
  room := Nat.zero_le _
  front := formed.positive
  back := (Nat.zero_mod _).symm
  length := formed.length

theorem Log.WellFormed.delete (formed : me.WellFormed) {idx : Nat} (positive : 0 < idx) :
    ∃ after popped, logDelete me idx = (0, after, popped) ∧ after.WellFormed ∧
      after.base = me.base ∧ after.front = me.front ∧
        after.toList = me.toList.take (idx - me.base - 1) ∧
          popped = ((me.toList.zipIdx (me.base + 1)).drop (idx - me.base - 1)).reverse := by
  have popped := @Log.WellFormed.popEntries me formed (if idx < me.base then me.base else idx) _ rfl
  have same : (if idx < me.base then me.base else idx) - me.base - 1 = idx - me.base - 1 := by
    split <;> omega
  rw [same] at popped
  exact ⟨_, _, by rw [logDelete, if_neg (by omega)], popped⟩

theorem Log.WellFormed.poll (formed : me.WellFormed) :
    (logPoll me = none ∧ me.toList = []) ∨
      ∃ entry after, logPoll me = some (entry, after) ∧ after.WellFormed ∧
        after.base = me.base + 1 ∧ me.toList = entry :: after.toList := by
  rcases Nat.eq_zero_or_pos me.count with empty | some_
  · exact Or.inl ⟨by rw [logPoll, if_pos empty],
      List.eq_nil_of_length_eq_zero (by rw [length_toList, empty])⟩
  · have room := formed.room
    refine Or.inr ⟨me.entries.getD me.front Entry.zero,
      { me with front := (me.front + 1) % me.size, count := me.count - 1, base := me.base + 1 },
      by rw [logPoll, if_neg (by omega)], ⟨formed.positive, ?_,
      Nat.mod_lt _ formed.positive, ?_, formed.length⟩, rfl, ?_⟩
    · simp only
      omega
    · simp only
      rw [formed.back, Nat.mod_add_mod]
      congr 1
      omega
    · obtain ⟨n, count⟩ := Nat.exists_eq_succ_of_ne_zero some_.ne'
      rw [Log.toList, count,
        RingBuffer.contents_eq_cons (by rw [formed.length]; exact formed.front)]
      simp only [Log.toList, formed.length, Nat.succ_sub_one]

theorem Log.WellFormed.peektail (formed : me.WellFormed) :
    logPeektail me = me.toList.getLast? := by
  rcases Nat.eq_zero_or_pos me.count with empty | some_
  · have none_ : me.toList = [] := List.eq_nil_of_length_eq_zero (by rw [length_toList, empty])
    rw [logPeektail, if_pos empty, none_, List.getLast?_nil]
  · obtain ⟨n, count⟩ := Nat.exists_eq_succ_of_ne_zero some_.ne'
    have positive := formed.positive
    have last := Nat.mod_lt (me.front + n) positive
    have backEq : me.back = ((me.front + n) % me.size + 1) % me.size := by
      rw [formed.back, count, Nat.mod_add_mod, Nat.succ_eq_add_one, Nat.add_assoc]
    rw [logPeektail, if_neg (by omega), Log.toList, count, RingBuffer.contents_succ,
      List.getLast?_concat, formed.length,
      List.getD_eq_getElem _ _ (by rw [formed.length]; exact last), ← List.getElem?_eq_getElem]
    by_cases wraps : (me.front + n) % me.size + 1 = me.size
    · rw [wraps, Nat.mod_self] at backEq
      rw [if_pos backEq]
      congr 1
      omega
    · rw [Nat.mod_eq_of_lt (by omega)] at backEq
      rw [if_neg (by omega), backEq, Nat.add_sub_cancel]

end Rules

/-! ## Histories of a log -/

/-- The operations that change a log. -/
inductive LogOperation
  | append (ety : Entry)
  | delete (idx : Nat)
  | poll
  | loadFromSnapshot (idx : Nat)
  | empty

/-- The log after an operation of the library. -/
def LogOperation.onLog (me : Log) : LogOperation → Log
  | append ety => logAppendEntry me ety
  | delete idx => (logDelete me idx).2.1
  | poll => ((logPoll me).map (·.2)).getD me
  | loadFromSnapshot idx => (logLoadFromSnapshot me idx).2
  | empty => logEmpty me

/-- What a log is for: a list of entries behind those that a snapshot has taken. -/
structure Indexed where
  base : Nat
  entries : List Entry

/-- The list after an operation. -/
def LogOperation.onList (list : Indexed) : LogOperation → Indexed
  | append ety => { list with entries := list.entries ++ [ety] }
  | delete idx =>
      if idx = 0 then list else { list with entries := list.entries.take (idx - list.base - 1) }
  | poll => if list.entries = [] then list else ⟨list.base + 1, list.entries.tail⟩
  | loadFromSnapshot idx => ⟨idx, []⟩
  | empty => { list with entries := [] }

/-- The entry with an index. -/
def Indexed.at (list : Indexed) (idx : Nat) : Option Entry :=
  if idx ≤ list.base then none else list.entries[idx - list.base - 1]?

/-- The log in its ring buffer stands for the list. -/
structure Log.Represents (me : Log) (list : Indexed) : Prop where
  formed : me.WellFormed
  base : me.base = list.base
  entries : me.toList = list.entries

theorem Log.Represents.step {me : Log} {list : Indexed} (represents : me.Represents list)
    (operation : LogOperation) : (operation.onLog me).Represents (operation.onList list) := by
  obtain ⟨formed, base, entries⟩ := represents
  cases operation with
  | append ety =>
      obtain ⟨formed', entries', base'⟩ := formed.append ety
      exact ⟨formed', base'.trans base, by rw [LogOperation.onLog, entries', entries]; rfl⟩
  | delete idx =>
      rcases Nat.eq_zero_or_pos idx with rfl | positive
      · exact ⟨formed, base, entries⟩
      · obtain ⟨after, popped, eq, formed', base', -, entries', -⟩ := formed.delete positive
        rw [LogOperation.onLog, LogOperation.onList, eq, if_neg positive.ne']
        exact ⟨formed', base'.trans base, by rw [entries', entries, base]⟩
  | poll =>
      rcases formed.poll with ⟨eq, empty⟩ | ⟨entry, after, eq, formed', base', split⟩
      · rw [LogOperation.onLog, LogOperation.onList, eq, if_pos (entries.symm.trans empty)]
        exact ⟨formed, base, entries⟩
      · have split' : list.entries = entry :: after.toList := entries.symm.trans split
        rw [LogOperation.onLog, LogOperation.onList, eq, if_neg (by rw [split']; simp)]
        exact ⟨formed', base'.trans (congrArg (· + 1) base), by rw [split']; rfl⟩
  | loadFromSnapshot idx => exact ⟨formed.cleared idx, rfl, rfl⟩
  | empty => exact ⟨formed.cleared me.base, base, rfl⟩

theorem represents_run {initialSize : Nat} (positive : 0 < initialSize)
    (operations : List LogOperation) :
    (operations.foldl LogOperation.onLog (logAlloc initialSize)).Represents
      (operations.foldl LogOperation.onList ⟨0, []⟩) := by
  induction operations using List.reverseRecOn with
  | nil => exact ⟨wellFormed_logAlloc positive, rfl, rfl⟩
  | append_singleton operations last ih =>
      rw [List.foldl_append, List.foldl_append]
      exact ih.step last

/-- After every history the log answers like the list, whatever size it began with and
however often the ring has been doubled or has gone round. -/
theorem log_reads_like_list {initialSize : Nat} (positive : 0 < initialSize)
    (operations : List LogOperation) :
    let me := operations.foldl LogOperation.onLog (logAlloc initialSize)
    let list := operations.foldl LogOperation.onList ⟨0, []⟩
    (∀ idx, logGetAtIdx me idx = list.at idx) ∧
      logGetCurrentIdx me = list.base + list.entries.length ∧
      logPeektail me = list.entries.getLast? ∧
      (logPoll me).map (·.1) = list.entries.head? ∧
      (∀ idx, 0 < idx → (logDelete me idx).2.2 =
        ((list.entries.zipIdx (list.base + 1)).drop (idx - list.base - 1)).reverse) ∧
      ∀ idx, list.base < idx → idx ≤ list.base + list.entries.length →
        ∃ entries, logGetFromIdx me idx = some (some entries) ∧ entries ≠ [] ∧
          entries <+: list.entries.drop (idx - list.base - 1) := by
  intro me list
  obtain ⟨formed, base, entries⟩ := represents_run positive operations
  refine ⟨fun idx => ?_, ?_, ?_, ?_, fun idx some_ => ?_, fun idx after le => ?_⟩
  · rw [formed.logGetAtIdx, base, entries, Indexed.at]
  · rw [logGetCurrentIdx, logCount, ← length_toList, entries, base, Nat.add_comm]
  · rw [formed.peektail, entries]
  · rcases formed.poll with ⟨eq, empty⟩ | ⟨entry, after, eq, -, -, split⟩
    · rw [eq, ← entries, empty]
      rfl
    · rw [eq, ← entries, split]
      rfl
  · obtain ⟨after, popped, eq, -, -, -, -, popped_eq⟩ := formed.delete some_
    rw [eq, popped_eq, entries, base]
  · rw [← entries, length_toList, ← base] at le
    obtain ⟨read, eq, some_, begins, -⟩ := formed.logGetFromIdx (base ▸ after) le
    exact ⟨read, eq, some_, by rw [← base, ← entries]; exact begins⟩

theorem logGetAtIdx_after_poll :
    logGetAtIdx ([.append ⟨1, 0, 0, [1]⟩, .append ⟨1, 1, 0, [2]⟩, .poll].foldl
      LogOperation.onLog (logAlloc 1)) 2 = some ⟨1, 1, 0, [2]⟩ :=
  (log_reads_like_list (by decide : 0 < 1)
    [.append ⟨1, 0, 0, [1]⟩, .append ⟨1, 1, 0, [2]⟩, .poll]).1 2

end Raft

end LuaServer
