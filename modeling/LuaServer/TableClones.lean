import LuaServer.LuaStack

/-!
# Clones of tables

A value is cloned on the stack of Lua.  The keys and values of a table are visited by
`lua_next`, which leaves them on top, and the copies are pushed above them: the index `-2`
is the key first, and the value once the copy of the key is there.  The depth is counted,
and one table too deep is an error.
-/

namespace LuaServer

open LuaHeap

def MAXDEP : Nat := 10

/-- `Clone`. -/
structure Clone where
  L : LuaState
  dep : Nat

/-- What the code returns with so many calls and rounds left: nothing when they do not
suffice, and otherwise an error or a result. -/
abbrev Attempt (α : Type) :=
  ExceptT String Option α

def Attempt.outOfFuel {α : Type} : Attempt α :=
  ExceptT.mk none

mutual

/-- `Clone::clonetable`. -/
def clonetable : Nat → Int → Clone → Attempt Clone
  | 0, _, _ => .outOfFuel
  | fuel + 1, idx, c => do
      let c := { c with dep := c.dep + 1 }
      if MAXDEP < c.dep then throw "clone dep err"
      let idx := if idx < 0 then c.L.gettop + idx + 1 else idx
      let L := c.L.createtable
      let nidx := L.gettop
      let c ← cloneEntries fuel idx nidx { c with L := L.pushnil }
      return { c with dep := c.dep - 1 }

/-- The loop of `Clone::clonetable`. -/
def cloneEntries : Nat → Int → Int → Clone → Attempt Clone
  | 0, _, _, _ => .outOfFuel
  | fuel + 1, idx, nidx, c => do
      let (L, more) ← ExceptT.mk (some (c.L.next idx))
      if more then
        let c ← clone fuel (-2) { c with L := L }
        let c ← clone fuel (-2) c
        let L ← ExceptT.mk (some (c.L.settable nidx))
        cloneEntries fuel idx nidx { c with L := L.pop 1 }
      else return { c with L := L }

/-- `Clone::clone`. -/
def clone : Nat → Int → Clone → Attempt Clone
  | 0, _, _ => .outOfFuel
  | fuel + 1, idx, c =>
      let type := c.L.type idx
      if type = LUA_TBOOLEAN ∨ type = LUA_TNUMBER ∨ type = LUA_TSTRING then
        return { c with L := c.L.pushvalue idx }
      else if type = LUA_TTABLE then clonetable fuel idx c
      else throw ("clonetype err " ++ toString type)

end

/-- `clone` of the library: the value on top of the state is returned. -/
def lclone (fuel : Nat) (L : LuaState) : Attempt LuaState := do
  let c ← clone fuel 1 { L := L.settop 1, dep := 0 }
  return c.L

section Attempts

variable {α β : Type}

/-- With enough fuel the code comes to its end, with this result or error. -/
def Ends (attempt : Nat → Attempt α) (result : Except String α) : Prop :=
  ∃ bound, ∀ fuel ≥ bound, (attempt fuel).run = some result

theorem ends_of_succ {attempt : Nat → Attempt α} {result : Except String α} (bound : Nat)
    (ended : ∀ fuel ≥ bound, (attempt (fuel + 1)).run = some result) : Ends attempt result := by
  refine ⟨bound + 1, fun fuel atLeast => ?_⟩
  cases fuel with
  | zero => exact absurd atLeast (Nat.not_succ_le_zero bound)
  | succ fuel => exact ended fuel (Nat.le_of_succ_le_succ atLeast)

theorem run_bind_ok {attempt : Attempt α} {result : α} (ended : attempt.run = some (.ok result))
    (next : α → Attempt β) : (attempt >>= next).run = (next result).run := by
  rw [ExceptT.run_bind, ended]
  rfl

theorem run_bind_error {attempt : Attempt α} {message : String}
    (ended : attempt.run = some (.error message)) (next : α → Attempt β) :
    (attempt >>= next).run = some (.error message) := by
  rw [ExceptT.run_bind, ended]
  rfl

end Attempts

section Rounds

variable {c c' : Clone} {idx nidx : Int}

theorem ends_cloneEntries_last {L : LuaState} (isLast : c.L.next idx = .ok (L, false)) :
    Ends (fun fuel => cloneEntries fuel idx nidx c) (.ok { c with L := L }) := by
  refine ends_of_succ 0 fun fuel _ => ?_
  rw [cloneEntries, isLast]
  rfl

theorem ends_cloneEntries_key {L : LuaState} {message : String}
    (isNext : c.L.next idx = .ok (L, true))
    (key : Ends (fun fuel => clone fuel (-2) { c with L := L }) (.error message)) :
    Ends (fun fuel => cloneEntries fuel idx nidx c) (.error message) := by
  obtain ⟨bound, key⟩ := key
  refine ends_of_succ bound fun fuel atLeast => ?_
  rw [cloneEntries, isNext]
  exact run_bind_error (key fuel (by omega)) _

theorem ends_cloneEntries_value {L : LuaState} {keyed : Clone} {message : String}
    (isNext : c.L.next idx = .ok (L, true))
    (key : Ends (fun fuel => clone fuel (-2) { c with L := L }) (.ok keyed))
    (value : Ends (fun fuel => clone fuel (-2) keyed) (.error message)) :
    Ends (fun fuel => cloneEntries fuel idx nidx c) (.error message) := by
  obtain ⟨bound, key⟩ := key
  obtain ⟨bound', value⟩ := value
  refine ends_of_succ (bound + bound') fun fuel atLeast => ?_
  rw [cloneEntries, isNext]
  refine (run_bind_ok (key fuel (by omega)) _).trans ?_
  exact run_bind_error (value fuel (by omega)) _

theorem ends_cloneEntries_round {L L' : LuaState} {keyed valued : Clone}
    {result : Except String Clone} (isNext : c.L.next idx = .ok (L, true))
    (key : Ends (fun fuel => clone fuel (-2) { c with L := L }) (.ok keyed))
    (value : Ends (fun fuel => clone fuel (-2) keyed) (.ok valued))
    (assigned : valued.L.settable nidx = .ok L')
    (rest : Ends (fun fuel => cloneEntries fuel idx nidx { valued with L := L'.pop 1 }) result) :
    Ends (fun fuel => cloneEntries fuel idx nidx c) result := by
  obtain ⟨bound, key⟩ := key
  obtain ⟨bound', value⟩ := value
  obtain ⟨bound'', rest⟩ := rest
  refine ends_of_succ (bound + bound' + bound'') fun fuel atLeast => ?_
  rw [cloneEntries, isNext]
  refine (run_bind_ok (key fuel (by omega)) _).trans ?_
  refine (run_bind_ok (value fuel (by omega)) _).trans ?_
  rw [assigned]
  exact rest fuel (by omega)

end Rounds

/-- The value was cloned: its copy was pushed, and nothing else. -/
structure Cloned (limit : Nat) (c c' : Clone) (value copy : Value) : Prop where
  dep : c'.dep = c.dep
  stack : c'.L.stack = c.L.stack ++ [copy]
  copy : Heap.IsCopy c.L.heap c'.L.heap limit value copy

/-- A value that holds tables at most so deep is cloned, and any other one is an error. -/
def ClonesUpTo (limit : Nat) : Prop :=
  ∀ (c : Clone) (idx : Int) (value : Value), MAXDEP - c.dep = limit →
    stackValue c.L.stack idx = some value →
    (c.L.heap.Nested limit value → ∃ c' copy,
      Ends (fun fuel => clone fuel idx c) (.ok c') ∧ Cloned limit c c' value copy) ∧
    (¬ c.L.heap.Nested limit value → ∃ message,
      Ends (fun fuel => clone fuel idx c) (.error message))

section Loop

variable {limit source target : Nat} {heap : Heap} {front : List Value} {idx : Int}

theorem not_nil_of_nested {value copy : Value} (nested : heap.Nested limit value)
    (same : copy.shape = value.shape) : copy ≠ .nil := by
  rintro rfl
  rcases Value.eq_or_isTable same with rfl | ⟨isTable, _⟩
  · cases limit with
    | zero => exact nested
    | succ limit => exact nested
  · exact isTable

/-- The loop before a round: some entries were copied, and the key of the last of them is on
top of the copy. -/
structure AtRound (limit source target : Nat) (heap : Heap) (front : List Value)
    (done rest : List (Sigma fun _ : Value => Value)) (c : Clone) : Prop where
  entries : (heap.tables source).entries = done ++ rest
  dep : MAXDEP - c.dep = limit
  copying : Heap.Copying heap c.L.heap limit target done
  stack : c.L.stack = front ++ [.table target] ++ [(done.getLast?.map Sigma.fst).getD .nil]

section Round

variable {done rest : List (Sigma fun _ : Value => Value)}
  {entry : Sigma fun _ : Value => Value} {c : Clone}

theorem AtRound.isTable (round : AtRound limit source target heap front done rest c)
    (isSource : stackValue front idx = some (.table source)) (positive : 0 < idx) :
    stackValue c.L.stack idx = some (.table source) := by
  rw [round.stack, List.append_assoc]
  exact stackValue_of_front isSource positive _

theorem AtRound.isNext (round : AtRound limit source target heap front done rest c)
    (isOld : source < heap.size) :
    nextEntry (c.L.heap.tables source).entries ((done.getLast?.map Sigma.fst).getD .nil) =
      .ok rest.head? := by
  rw [round.copying.grown.tables source isOld, round.entries]
  refine nextEntry_append (round.entries ▸ (heap.tables source).nodupKeys) fun entry isDone => ?_
  exact (heap.held source entry (round.entries ▸ List.mem_append_left rest isDone)).isKey

theorem AtRound.held (round : AtRound limit source target heap front done (entry :: rest) c) :
    Held heap.size entry :=
  heap.held source entry
    (round.entries ▸ List.mem_append_right done List.mem_cons_self)

theorem AtRound.notDone (round : AtRound limit source target heap front done (entry :: rest) c) :
    entry.1 ∉ done.keys := by
  have noDup := (heap.tables source).nodupKeys
  rw [round.entries, List.NodupKeys, List.keys_append, List.nodup_append] at noDup
  exact fun isDone => noDup.2.2 entry.1 isDone entry.1 List.mem_cons_self rfl

/-- One round of the loop copies an entry. -/
theorem AtRound.step (clones : ClonesUpTo limit) (isOld : source < heap.size)
    (isSource : stackValue front idx = some (.table source)) (positive : 0 < idx)
    (round : AtRound limit source target heap front done (entry :: rest) c)
    (keyNested : heap.Nested limit entry.1) (valueNested : heap.Nested limit entry.2) :
    ∃ c', c'.dep = c.dep ∧
      AtRound limit source target heap front (done ++ [entry]) rest c' ∧
      ∀ result, Ends (fun fuel => cloneEntries fuel idx (front.length + 1) c') result →
        Ends (fun fuel => cloneEntries fuel idx (front.length + 1) c) result := by
  obtain ⟨isKey, keyBelow, valueBelow⟩ := round.held
  obtain ⟨L, isNext, sameHeap, pushed⟩ :=
    next_of_some (round.isTable isSource positive) round.stack (round.isNext isOld)
  have grown : heap.Extends L.heap := sameHeap ▸ round.copying.grown
  obtain ⟨keyed, key, keyEnds, keyCloned⟩ := (clones { c with L := L } (-2) entry.1 round.dep
    (pushed ▸ stackValue_second)).1
      ((Heap.nested_iff_of_extends grown limit keyBelow).mpr keyNested)
  have keyedStack : keyed.L.stack =
      (front ++ [.table target] ++ [entry.1]) ++ [entry.2, key] := by
    rw [keyCloned.stack, pushed]
    simp only [List.append_assoc, List.cons_append, List.nil_append]
  have keyGrown : heap.Extends keyed.L.heap := grown.trans keyCloned.copy.grown
  obtain ⟨valued, value, valueEnds, valueCloned⟩ := (clones keyed (-2) entry.2
    (keyCloned.dep ▸ round.dep) (keyedStack ▸ stackValue_second)).1
      ((Heap.nested_iff_of_extends keyGrown limit valueBelow).mpr valueNested)
  have valuedStack : valued.L.stack =
      (front ++ [.table target] ++ [entry.1, entry.2]) ++ [key, value] := by
    rw [valueCloned.stack, keyedStack]
    simp only [List.append_assoc, List.cons_append, List.nil_append]
  have isTarget : stackValue valued.L.stack (front.length + 1) = some (.table target) := by
    rw [valuedStack, List.append_assoc]
    exact stackValue_of_front stackValue_top (by omega) _
  have copyIsKey : key.IsKey := by
    rcases Value.eq_or_isTable keyCloned.copy.shape with rfl | ⟨isTable, _⟩
    · exact isKey
    · exact Value.isKey_of_isTable isTable
  obtain ⟨L', held, assigned, assignedHeap, popped⟩ := settable_of_isKey isTarget valuedStack
    copyIsKey (not_nil_of_nested valueNested valueCloned.copy.shape)
  refine ⟨{ valued with L := L'.pop 1 }, ?_, ⟨?_, ?_, ?_, ?_⟩, fun result ended => ?_⟩
  · exact valueCloned.dep.trans keyCloned.dep
  · rw [round.entries, List.append_assoc, List.singleton_append]
  · exact (valueCloned.dep.trans keyCloned.dep) ▸ round.dep
  · change Heap.Copying heap L'.heap limit target (done ++ [entry])
    rw [assignedHeap]
    exact round.copying.step (sameHeap ▸ keyCloned.copy) valueCloned.copy held valueBelow
      round.notDone
  · rw [List.getLast?_concat, Option.map_some, Option.getD_some]
    refine @pop_stack L' _ [entry.2] (popped.trans ?_)
    simp only [List.append_assoc, List.cons_append, List.nil_append]
  · exact ends_cloneEntries_round isNext keyEnds valueEnds assigned ended

/-- A key or a value that cannot be cloned ends the loop. -/
theorem AtRound.fails (clones : ClonesUpTo limit) (isOld : source < heap.size)
    (isSource : stackValue front idx = some (.table source)) (positive : 0 < idx)
    (round : AtRound limit source target heap front done (entry :: rest) c)
    (notNested : ¬ (heap.Nested limit entry.1 ∧ heap.Nested limit entry.2)) :
    ∃ message, Ends (fun fuel => cloneEntries fuel idx (front.length + 1) c)
      (.error message) := by
  obtain ⟨isKey, keyBelow, valueBelow⟩ := round.held
  obtain ⟨L, isNext, sameHeap, pushed⟩ :=
    next_of_some (round.isTable isSource positive) round.stack (round.isNext isOld)
  have grown : heap.Extends L.heap := sameHeap ▸ round.copying.grown
  have onKey := clones { c with L := L } (-2) entry.1 round.dep (pushed ▸ stackValue_second)
  by_cases keyNested : heap.Nested limit entry.1
  · obtain ⟨keyed, key, keyEnds, keyCloned⟩ :=
      onKey.1 ((Heap.nested_iff_of_extends grown limit keyBelow).mpr keyNested)
    have keyedStack : keyed.L.stack =
        (front ++ [.table target] ++ [entry.1]) ++ [entry.2, key] := by
      rw [keyCloned.stack, pushed]
      simp only [List.append_assoc, List.cons_append, List.nil_append]
    have keyGrown : heap.Extends keyed.L.heap := grown.trans keyCloned.copy.grown
    obtain ⟨message, valueEnds⟩ := (clones keyed (-2) entry.2 (keyCloned.dep ▸ round.dep)
      (keyedStack ▸ stackValue_second)).2 fun valueNested => notNested ⟨keyNested,
        (Heap.nested_iff_of_extends keyGrown limit valueBelow).mp valueNested⟩
    exact ⟨message, ends_cloneEntries_value isNext keyEnds valueEnds⟩
  · obtain ⟨message, keyEnds⟩ := onKey.2 fun nested =>
      keyNested ((Heap.nested_iff_of_extends grown limit keyBelow).mp nested)
    exact ⟨message, ends_cloneEntries_key isNext keyEnds⟩

/-- The loop copies all entries, or raises the error of one of them. -/
theorem AtRound.spec (clones : ClonesUpTo limit) (isOld : source < heap.size)
    (isSource : stackValue front idx = some (.table source)) (positive : 0 < idx)
    (round : AtRound limit source target heap front done rest c) :
    ((∀ entry ∈ rest, heap.Nested limit entry.1 ∧ heap.Nested limit entry.2) →
      ∃ c', Ends (fun fuel => cloneEntries fuel idx (front.length + 1) c) (.ok c') ∧
        c'.dep = c.dep ∧ c'.L.stack = front ++ [.table target] ∧
        Heap.Copying heap c'.L.heap limit target (heap.tables source).entries) ∧
    ((¬ ∀ entry ∈ rest, heap.Nested limit entry.1 ∧ heap.Nested limit entry.2) →
      ∃ message, Ends (fun fuel => cloneEntries fuel idx (front.length + 1) c)
        (.error message)) := by
  induction rest generalizing done c with
  | nil =>
      refine ⟨fun _ => ?_, fun notAll => absurd (fun _ => List.not_mem_nil.elim) notAll⟩
      refine ⟨_, ends_cloneEntries_last (next_of_none (round.isTable isSource positive)
        round.stack (round.isNext isOld)), rfl, pop_stack round.stack, ?_⟩
      rw [round.entries, List.append_nil]
      exact round.copying
  | cons entry rest ih =>
      rw [List.forall_mem_cons]
      by_cases nested : heap.Nested limit entry.1 ∧ heap.Nested limit entry.2
      · obtain ⟨c₁, sameDep, round₁, extend⟩ :=
          round.step clones isOld isSource positive nested.1 nested.2
        rw [and_iff_right nested]
        refine ⟨fun all => ?_, fun notAll => ?_⟩
        · obtain ⟨c', ended, dep, stack, copying⟩ := (ih round₁).1 all
          exact ⟨c', extend _ ended, dep.trans sameDep, stack, copying⟩
        · obtain ⟨message, ended⟩ := (ih round₁).2 notAll
          exact ⟨message, extend _ ended⟩
      · exact ⟨fun all => absurd all.1 nested,
          fun _ => round.fails clones isOld isSource positive nested⟩

end Round

end Loop

section Types

variable {c : Clone} {idx : Int} {value : Value}

theorem type_of_stackValue (isValue : stackValue c.L.stack idx = some value) :
    c.L.type idx = value.type := by
  rw [LuaState.type, isValue, Option.map_some, Option.getD_some]

theorem ends_clone_scalar (isValue : stackValue c.L.stack idx = some value)
    (scalar : value.IsScalar) :
    Ends (fun fuel => clone fuel idx c) (.ok { c with L := c.L.pushvalue idx }) := by
  refine ends_of_succ 0 fun fuel _ => ?_
  have isScalar : value.type = LUA_TBOOLEAN ∨ value.type = LUA_TNUMBER ∨
      value.type = LUA_TSTRING := by
    cases value with
    | boolean _ => exact Or.inl rfl
    | integer _ | number _ => exact Or.inr (Or.inl rfl)
    | string _ => exact Or.inr (Or.inr rfl)
    | nil | table _ | other _ _ => exact absurd scalar id
  simp only [clone, type_of_stackValue isValue, if_pos isScalar]
  rfl

theorem ends_clone_table {addr : Nat} {result : Except String Clone}
    (isValue : stackValue c.L.stack idx = some (.table addr))
    (ended : Ends (fun fuel => clonetable fuel idx c) result) :
    Ends (fun fuel => clone fuel idx c) result := by
  obtain ⟨bound, ended⟩ := ended
  refine ends_of_succ bound fun fuel atLeast => ?_
  have notScalar : ¬ ((Value.table addr).type = LUA_TBOOLEAN ∨
      (Value.table addr).type = LUA_TNUMBER ∨ (Value.table addr).type = LUA_TSTRING) := by
    simp only [Value.type]
    decide
  simp only [clone, type_of_stackValue isValue, if_neg notScalar]
  exact ended fuel atLeast

theorem ends_clone_other (isValue : stackValue c.L.stack idx = some value)
    (notScalar : ¬ value.IsScalar) (notTable : ¬ value.IsTable) :
    ∃ message, Ends (fun fuel => clone fuel idx c) (.error message) := by
  refine ⟨"clonetype err " ++ toString value.type, ends_of_succ 0 fun fuel _ => ?_⟩
  have isOther : ¬ (value.type = LUA_TBOOLEAN ∨ value.type = LUA_TNUMBER ∨
      value.type = LUA_TSTRING) ∧ ¬ value.type = LUA_TTABLE := by
    cases value with
    | nil => decide
    | other kind _ => cases kind <;> simp only [Value.type] <;> decide
    | table _ => exact absurd trivial notTable
    | _ => exact absurd trivial notScalar
  simp only [clone, type_of_stackValue isValue, if_neg isOther.1, if_neg isOther.2]
  rfl

end Types

section Tables

variable {c : Clone} {idx : Int} {addr : Nat}

theorem ends_clonetable_deep (deep : MAXDEP < c.dep + 1) :
    Ends (fun fuel => clonetable fuel idx c) (.error "clone dep err") := by
  refine ends_of_succ 0 fun fuel _ => ?_
  simp only [clonetable, if_pos deep]
  rfl

/-- The loop runs over the table, with the new one on top. -/
theorem ends_clonetable {result : Except String Clone} (notDeep : ¬ MAXDEP < c.dep + 1)
    (ended : Ends (fun fuel => cloneEntries fuel
      (if idx < 0 then c.L.gettop + idx + 1 else idx) (c.L.stack.length + 1)
      { L := c.L.createtable.pushnil, dep := c.dep + 1 }) result) :
    Ends (fun fuel => clonetable fuel idx c)
      (result.map fun c => { c with dep := c.dep - 1 }) := by
  obtain ⟨bound, ended⟩ := ended
  refine ends_of_succ bound fun fuel atLeast => ?_
  have top : c.L.createtable.gettop = c.L.stack.length + 1 := by
    rw [LuaState.gettop, LuaState.createtable, List.length_append, List.length_singleton,
      Nat.cast_add, Nat.cast_one]
  have loop := ended fuel atLeast
  simp only [clonetable, if_neg notDeep, top]
  cases result with
  | error message => exact run_bind_error loop _
  | ok c' => exact run_bind_ok loop _

theorem clones_table {limit : Nat} (clones : ClonesUpTo limit)
    (isValue : stackValue c.L.stack idx = some (.table addr)) (dep : MAXDEP - c.dep = limit + 1) :
    (c.L.heap.Nested (limit + 1) (.table addr) → ∃ c' copy,
      Ends (fun fuel => clone fuel idx c) (.ok c') ∧
        Cloned (limit + 1) c c' (.table addr) copy) ∧
    (¬ c.L.heap.Nested (limit + 1) (.table addr) → ∃ message,
      Ends (fun fuel => clone fuel idx c) (.error message)) := by
  have notDeep : ¬ MAXDEP < c.dep + 1 := by omega
  obtain ⟨positive, isSource⟩ := stackValue_absolute isValue
  have isOld : addr < c.L.heap.size := c.L.below (.table addr) (mem_of_stackValue isValue)
  have round : AtRound limit addr c.L.heap.size c.L.heap c.L.stack []
      (c.L.heap.tables addr).entries { L := c.L.createtable.pushnil, dep := c.dep + 1 } :=
    ⟨rfl, (Nat.sub_succ' MAXDEP c.dep).trans (congrArg Nat.pred dep),
      Heap.copying_create c.L.heap limit, rfl⟩
  obtain ⟨copies, fails⟩ := round.spec clones isOld isSource positive
  constructor
  · intro nested
    obtain ⟨c', ended, sameDep, stack, copying⟩ := copies nested
    refine ⟨{ c' with dep := c'.dep - 1 }, .table c.L.heap.size,
      ends_clone_table isValue (ends_clonetable notDeep ended), ?_, stack, copying.isCopy⟩
    exact congrArg Nat.pred sameDep
  · intro notNested
    obtain ⟨message, ended⟩ := fails notNested
    exact ⟨message, ends_clone_table isValue (ends_clonetable notDeep ended)⟩

end Tables

theorem clones_not_table {limit : Nat} {c : Clone} {idx : Int} {value : Value}
    (isValue : stackValue c.L.stack idx = some value) (notTable : ¬ value.IsTable) :
    (c.L.heap.Nested limit value → ∃ c' copy,
      Ends (fun fuel => clone fuel idx c) (.ok c') ∧ Cloned limit c c' value copy) ∧
    (¬ c.L.heap.Nested limit value → ∃ message,
      Ends (fun fuel => clone fuel idx c) (.error message)) := by
  by_cases scalar : value.IsScalar
  · refine ⟨fun _ => ⟨_, value, ends_clone_scalar isValue scalar, rfl, ?_,
      Heap.isCopy_of_scalar c.L.heap limit scalar⟩,
      fun notNested => absurd (Heap.nested_of_scalar scalar limit) notNested⟩
    change c.L.stack ++ [c.L.value idx] = _
    rw [value_of_stackValue isValue]
  · refine ⟨fun nested => ?_, fun _ => ends_clone_other isValue scalar notTable⟩
    rcases (Heap.nested_iff_within limit).mp nested 0 value (.self value) with isScalar | table
    · exact absurd isScalar scalar
    · exact absurd table.1 notTable

/-- Up to any depth that is left, the values that hold tables at most so deep are cloned. -/
theorem clonesUpTo (limit : Nat) : ClonesUpTo limit := by
  induction limit with
  | zero =>
      intro c idx value dep isValue
      cases value with
      | table addr =>
          have deep : MAXDEP < c.dep + 1 := Nat.lt_succ_of_le (Nat.sub_eq_zero_iff_le.mp dep)
          exact ⟨fun nested => absurd nested id,
            fun _ => ⟨_, ends_clone_table isValue (ends_clonetable_deep deep)⟩⟩
      | _ => exact clones_not_table isValue id
  | succ limit ih =>
      intro c idx value dep isValue
      cases value with
      | table addr => exact clones_table ih isValue dep
      | _ => exact clones_not_table isValue id

theorem exists_stackValue {stack : List Value} {idx : Int}
    (valid : 1 ≤ idx ∧ idx ≤ stack.length ∨ idx ≤ -1 ∧ -(stack.length : Int) ≤ idx) :
    ∃ value, stackValue stack idx = some value := by
  rcases valid with ⟨positive, upTo⟩ | ⟨negative, upTo⟩
  · rw [stackValue, if_pos (by omega)]
    exact ⟨_, List.getElem?_eq_getElem (by omega)⟩
  · rw [stackValue, if_neg (by omega), if_pos (by omega)]
    exact ⟨_, List.getElem?_eq_getElem (by omega)⟩

section Library

variable {L : LuaState}

/-- The argument of the library's function. -/
def LuaState.arg (L : LuaState) : Value :=
  L.stack.headD .nil

theorem settop_stack : (L.settop 1).stack = [L.arg] := by
  change (L.stack ++ List.replicate 1 Value.nil).take 1 = [L.stack.headD .nil]
  cases L.stack <;> rfl

theorem stackValue_settop : stackValue (L.settop 1).stack 1 = some L.arg := by
  rw [settop_stack]
  rfl

theorem arg_below : L.arg.Below L.heap.size :=
  (L.settop 1).below L.arg (settop_stack ▸ List.mem_cons_self)

theorem ends_lclone {result : Except String Clone}
    (ended : Ends (fun fuel => clone fuel 1 { L := L.settop 1, dep := 0 }) result) :
    Ends (fun fuel => lclone fuel L) (result.map Clone.L) := by
  obtain ⟨bound, ended⟩ := ended
  refine ⟨bound, fun fuel atLeast => ?_⟩
  cases result with
  | error message => exact run_bind_error (ended fuel atLeast) _
  | ok c => exact run_bind_ok (ended fuel atLeast) _

end Library

/-- The state behind a clone: the copy is behind the argument, with the same under all paths;
its tables are none of the argument's, and none of them is at two places; all tables that were
there are unchanged. -/
structure IsDeepClone (L L' : LuaState) (copy : Value) : Prop where
  stack : L'.stack = [L.arg, copy]
  same : ∀ path,
    (L'.heap.lookup copy path).map Value.shape = (L.heap.lookup L.arg path).map Value.shape
  apart : ∀ path path' addr, L'.heap.lookup copy path = some (.table addr) →
    L'.heap.lookup L.arg path' ≠ some (.table addr)
  once : ∀ path path' addr, L'.heap.lookup copy path = some (.table addr) →
    L'.heap.lookup copy path' = some (.table addr) → path = path'
  unchanged : ∀ addr < L.heap.size, L'.heap.tables addr = L.heap.tables addr

theorem exists_isDeepClone {L : LuaState}
    (nested : ∀ depth inner, L.heap.Within depth L.arg inner →
      inner.IsScalar ∨ inner.IsTable ∧ depth < MAXDEP)
    (scalarKeys : ∀ depth addr, L.heap.Within depth L.arg (.table addr) →
      ∀ entry ∈ (L.heap.tables addr).entries, entry.1.IsScalar) :
    ∃ L' copy, Ends (fun fuel => lclone fuel L) (.ok L') ∧ IsDeepClone L L' copy := by
  have isNested := (Heap.nested_iff_within MAXDEP).mpr nested
  obtain ⟨c, copy, ended, cloned⟩ := (clonesUpTo MAXDEP { L := L.settop 1, dep := 0 } 1 L.arg rfl
    stackValue_settop).1 isNested
  refine ⟨c.L, copy, ends_lclone ended, ?_, ?_, ?_, cloned.copy.once, ?_⟩
  · rw [cloned.stack, settop_stack]
    rfl
  · exact cloned.copy.same (Heap.plain_of_within MAXDEP isNested scalarKeys)
  · intro path path' addr isFound isFound'
    have newer := cloned.copy.fresh path addr isFound
    have grown : L.heap.Extends c.L.heap := cloned.copy.grown
    rw [grown.lookup arg_below] at isFound'
    exact absurd (Heap.lookup_below path' arg_below isFound') (not_lt.mpr newer)
  · exact cloned.copy.grown.tables

/-- A value of another type, or one that holds tables too deep, is an error. -/
theorem lclone_error {L : LuaState} {depth : Nat} {inner : Value}
    (within : L.heap.Within depth L.arg inner)
    (notAllowed : ¬ inner.IsScalar ∧ (inner.IsTable → MAXDEP ≤ depth)) :
    ∃ message, Ends (fun fuel => lclone fuel L) (.error message) := by
  obtain ⟨message, ended⟩ := (clonesUpTo MAXDEP { L := L.settop 1, dep := 0 } 1 L.arg rfl
    stackValue_settop).2 fun nested =>
      ((Heap.nested_iff_within MAXDEP).mp nested depth inner within).elim notAllowed.1
        fun table => absurd table.2 (not_lt.mpr (notAllowed.2 table.1))
  exact ⟨message, ends_lclone ended⟩

/-- A value is cloned when it has scalar keys and holds tables at most ten deep; one that holds
tables deeper, that is cyclic or that has another type in it is an error; and on the way each
clone pushes one value. -/
theorem clone_correct :
    (∀ L : LuaState,
      (∀ depth inner, L.heap.Within depth L.arg inner →
        inner.IsScalar ∨ inner.IsTable ∧ depth < 10) →
      (∀ depth addr, L.heap.Within depth L.arg (.table addr) →
        ∀ entry ∈ (L.heap.tables addr).entries, entry.1.IsScalar) →
      ∃ L' copy, Ends (fun fuel => lclone fuel L) (.ok L') ∧ IsDeepClone L L' copy) ∧
    (∀ L : LuaState,
      ((∃ depth inner, L.heap.Within depth L.arg inner ∧ ¬ inner.IsScalar ∧ ¬ inner.IsTable) ∨
        (∃ depth inner, L.heap.Within depth L.arg inner ∧ inner.IsTable ∧ 10 ≤ depth) ∨
        ∃ depth depth' addr, L.heap.Within depth L.arg (.table addr) ∧
          L.heap.Within (depth' + 1) (.table addr) (.table addr)) →
      ∃ message, Ends (fun fuel => lclone fuel L) (.error message)) ∧
    ∀ (c : Clone) (idx : Int),
      (1 ≤ idx ∧ idx ≤ c.L.gettop ∨ idx ≤ -1 ∧ -c.L.gettop ≤ idx) →
      (∃ c' copy, Ends (fun fuel => clone fuel idx c) (.ok c') ∧
        c'.L.stack = c.L.stack ++ [copy]) ∨
      ∃ message, Ends (fun fuel => clone fuel idx c) (.error message) := by
  refine ⟨fun L => exists_isDeepClone, fun L => ?_, fun c idx valid => ?_⟩
  · rintro (⟨depth, inner, within, notScalar, notTable⟩ | ⟨depth, inner, within, isTable, deep⟩ |
      ⟨depth, depth', addr, within, cycle⟩)
    · exact lclone_error within ⟨notScalar, fun isTable => absurd isTable notTable⟩
    · exact lclone_error within ⟨isTable.not_isScalar, fun _ => deep⟩
    · refine lclone_error (within.trans (cycle.repeated MAXDEP)) ⟨id, fun _ => ?_⟩
      exact (Nat.le_mul_of_pos_left MAXDEP (Nat.succ_pos depth')).trans (Nat.le_add_left _ _)
  · obtain ⟨value, isValue⟩ := exists_stackValue valid
    have spec := clonesUpTo (MAXDEP - c.dep) c idx value rfl isValue
    by_cases nested : c.L.heap.Nested (MAXDEP - c.dep) value
    · obtain ⟨c', copy, ended, cloned⟩ := spec.1 nested
      exact Or.inl ⟨c', copy, ended, cloned.stack⟩
    · exact Or.inr (spec.2 nested)

theorem sample_inner : Held 3 ⟨.integer 1, .table 1⟩ :=
  ⟨rfl, trivial, Nat.lt_of_sub_eq_succ rfl⟩

theorem sample_scalar : Held 3 ⟨.boolean true, .integer 5⟩ :=
  ⟨rfl, trivial, trivial⟩

theorem sample_cycle : Held 3 ⟨.integer 7, .table 2⟩ :=
  ⟨rfl, trivial, Nat.lt_succ_self 2⟩

/-- A table in a table, and another one that holds itself. -/
def sampleHeap : Heap :=
  ((Heap.empty.create.create.create.set 0 (.integer 1) (.table 1) sample_inner).set 1
    (.boolean true) (.integer 5) sample_scalar).set 2 (.integer 7) (.table 2) sample_cycle

theorem sampleHeap_keys (addr : Nat) :
    ∀ entry ∈ (sampleHeap.tables addr).entries, entry.1.IsScalar := by
  rcases addr with _ | _ | _ | addr
  · exact List.forall_mem_singleton.mpr trivial
  · exact List.forall_mem_singleton.mpr trivial
  · exact List.forall_mem_singleton.mpr trivial
  · exact fun _ => List.not_mem_nil.elim

theorem sampleHeap_nested : sampleHeap.Nested 10 (.table 0) := by
  refine List.forall_mem_singleton.mpr ⟨trivial, ?_⟩
  exact List.forall_mem_singleton.mpr ⟨trivial, trivial⟩

theorem sampleState_below {addr : Nat} (below : addr < sampleHeap.size) :
    ∀ value ∈ [Value.table addr], value.Below sampleHeap.size :=
  List.forall_mem_singleton.mpr below

def sampleState (addr : Nat) (below : addr < sampleHeap.size) : LuaState where
  heap := sampleHeap
  stack := [.table addr]
  below := sampleState_below below

theorem clone_correct_sample :
    (∃ L' copy, Ends (fun fuel => lclone fuel (sampleState 0 (by decide))) (.ok L') ∧
      IsDeepClone (sampleState 0 (by decide)) L' copy) ∧
    (∃ message, Ends (fun fuel => lclone fuel (sampleState 2 (by decide))) (.error message)) ∧
    ((∃ c' copy,
        Ends (fun fuel => clone fuel (-1) ⟨sampleState 0 (by decide), 0⟩) (.ok c') ∧
          c'.L.stack = [.table 0] ++ [copy]) ∨
      ∃ message,
        Ends (fun fuel => clone fuel (-1) ⟨sampleState 0 (by decide), 0⟩) (.error message)) := by
  refine ⟨clone_correct.1 _ ((Heap.nested_iff_within 10).mp sampleHeap_nested)
    fun _ addr _ => sampleHeap_keys addr, clone_correct.2.1 _ (Or.inr (Or.inr ?_)),
    clone_correct.2.2 ⟨sampleState 0 (by decide), 0⟩ (-1) (Or.inr ⟨by decide, by decide⟩)⟩
  exact ⟨0, 0, 2, .self _, .entry List.mem_cons_self (Or.inr rfl) (.self _)⟩

end LuaServer
