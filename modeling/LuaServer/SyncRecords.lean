import LuaServer.LuaTrees
import Mathlib.Logic.Function.Basic

/-!
# Records of updates and deletions

A change of an object is recorded along its path, in a table of updates or in a table of
deletions.  Nothing is ever taken out of the opposite table below a player: the local
variable of the recursion hides the parameter it is meant to come from.  So the two
tables stay apart exactly as long as there is nothing to take out.
-/

namespace LuaServer

namespace SyncRecords

open Lua

/-- `updates` and `deletes`. -/
structure Changes where
  updates : Fields
  deletes : Fields

/-- Nothing is recorded. -/
def Changes.empty : Changes := ⟨fun _ => .nil, fun _ => .nil⟩

/-- A new record, with the id of an object that is kept under its id. -/
def placeholder (k : Key) (id : Tree) : Fields :=
  if id = .scalar k then Function.update (fun _ => .nil) idKey (.scalar k) else fun _ => .nil

/-- The record of `uobj[k]` that `fill` goes on with.  Indexing any other value raises an
error. -/
def recordOf (k : Key) (object : Tree) : (old : Tree) → Option Fields
  | .table record => some record
  | old => if old.truthy then none else (object.index idKey).map (placeholder k)

/-- What `fill` puts at the end of a path. -/
def leaf (deltype pobj : Tree) (k : Key) : Option Tree :=
  if deltype.truthy then some deltype else pobj.index k

/-- `fill`, from the depth on at which `path` starts.  `dobj` is absent where the source
has no table.  Behind `local dobj` the parameter is out of reach: nothing is taken out
there, and the global `dobjk` that is passed on is never assigned. -/
def fill (deltype : Tree) : (pobj : Tree) → (uobj : Fields) → (dobj : Option Fields) →
    (path : List Key) → Option (Fields × Option Fields)
  | _, _, _, [] => none
  | pobj, uobj, dobj, [k] => do
      let value ← leaf deltype pobj k
      return (Function.update uobj k value, dobj.map fun dobj => Function.update dobj k .nil)
  | pobj, uobj, dobj, k :: next :: path => do
      let object ← pobj.index k
      let record ← recordOf k object (uobj k)
      let (record, _) ← fill deltype object record none (next :: path)
      return (Function.update uobj k (.table record), dobj)

namespace Changes

/-- The table that a call with this `deltype` writes. -/
def own (changes : Changes) (deltype : Tree) : Fields :=
  if deltype.truthy then changes.deletes else changes.updates

/-- The table of the opposite kind. -/
def opposite (changes : Changes) (deltype : Tree) : Fields :=
  if deltype.truthy then changes.updates else changes.deletes

end Changes

structure Player where
  id : Key
  object : Tree
  hasId : object.get idKey = .scalar id

/-- A call of `update` for a path that exists. -/
structure Call where
  player : Player
  path : List Key
  deltype : Tree
  exists_ : player.object.find path ≠ .nil

/-- The path of a call with the id of its player in front. -/
def Call.place (call : Call) : List Key := call.player.id :: call.path

/-- `update`. -/
def update (changes : Changes) (call : Call) : Option Changes := do
  let rp := .table (Function.update (fun _ => .nil) call.player.id call.player.object)
  let (own, opposite) ← fill call.deltype rp (changes.own call.deltype)
    (some (changes.opposite call.deltype)) call.place
  let opposite ← opposite
  return if call.deltype.truthy then ⟨opposite, own⟩ else ⟨own, opposite⟩

/-- A call that raises an error changes nothing: the records on the way were all there. -/
def step (changes : Changes) (call : Call) : Changes :=
  (update changes call).getD changes

def run (history : List Call) : Changes :=
  history.foldl step .empty

/-- A record under `k` that holds at most the id of its object. -/
def Bare (k : Key) (record : Tree) : Prop :=
  record ≠ .nil ∧ ∀ key, record.get key ≠ .nil → key = idKey ∧ record.get key = .scalar k

/-- One of the paths leads through the other. -/
def Related (first second : List Key) : Prop := first <+: second ∨ second <+: first

/-- The part of the path up to `k` is not all of it. -/
def On (way : List Key) (k : Key) (path : List Key) : Prop :=
  way ++ [k] <+: path ∧ way ++ [k] ≠ path

/-- A place on the path of a call where the id of a new record is kept. -/
def NewId (old new : Fields) (path place : List Key) : Prop :=
  ∃ way k, On way k path ∧ place = way ++ [k, idKey] ∧
    ((Tree.table old).find (way ++ [k])).truthy = false ∧
    (Tree.table new).find place = .scalar k

/-- What is asked of the tables behind a call. -/
structure Settled (changes : Changes) (call : Call) (after : Changes) : Prop where
  recorded : (Tree.table (after.own call.deltype)).find call.place =
    if call.deltype.truthy then call.deltype else call.player.object.find call.path
  cleared : (Tree.table (after.opposite call.deltype)).find call.place = .nil
  pruned : ∀ way k, On way k call.place →
    ¬ Bare k ((Tree.table (after.opposite call.deltype)).find (way ++ [k]))
  ownKept : ∀ place, ¬ Related place call.place →
    (Tree.table (after.own call.deltype)).find place =
        (Tree.table (changes.own call.deltype)).find place ∨
      NewId (changes.own call.deltype) (after.own call.deltype) call.place place
  oppositeKept : ∀ place, ¬ Related place call.place →
    (Tree.table (after.opposite call.deltype)).find place =
      (Tree.table (changes.opposite call.deltype)).find place

/-- There is nothing in the way of a call: all records it goes through are tables, and the
opposite table has nothing to take out. -/
structure Clear (changes : Changes) (call : Call) : Prop where
  passable : ∀ way k, On way k call.place →
    ((Tree.table (changes.own call.deltype)).find (way ++ [k])).truthy →
      ∃ fields, (Tree.table (changes.own call.deltype)).find (way ++ [k]) = .table fields
  nothing : call.path ≠ [] →
    (Tree.table (changes.opposite call.deltype)).find call.place = .nil ∧
      ∀ way k, On way k call.place →
        ¬ Bare k ((Tree.table (changes.opposite call.deltype)).find (way ++ [k]))

theorem on_cons {way path : List Key} {key k : Key} : On way key (k :: path) ↔
    (way = [] ∧ key = k ∧ path ≠ []) ∨ ∃ rest, way = k :: rest ∧ On rest key path := by
  cases way with
  | nil =>
      simp only [On, List.nil_append, List.cons_prefix_cons, List.nil_prefix, and_true, true_and]
      constructor
      · rintro ⟨rfl, more⟩
        exact Or.inl ⟨rfl, fun none => more (by rw [none])⟩
      · rintro (⟨rfl, more⟩ | ⟨rest, split, -⟩)
        · exact ⟨rfl, fun all => more (List.cons.inj all).2.symm⟩
        · cases split
  | cons first way =>
      simp only [On, List.cons_append, List.cons_prefix_cons]
      constructor
      · rintro ⟨⟨rfl, isPrefix⟩, more⟩
        exact Or.inr ⟨way, rfl, isPrefix, fun all => more (by rw [all])⟩
      · rintro (⟨empty, -⟩ | ⟨rest, split, isPrefix, more⟩)
        · cases empty
        · obtain ⟨rfl, rfl⟩ := List.cons.inj split
          exact ⟨⟨rfl, isPrefix⟩, fun all => more (List.cons.inj all).2⟩

theorem not_on_single {way : List Key} {key k : Key} : ¬ On way key [k] := by
  intro on
  obtain ⟨-, -, more⟩ | ⟨rest, -, isPrefix, -⟩ := on_cons.mp on
  · exact more rfl
  · exact List.append_ne_nil_of_right_ne_nil rest (List.cons_ne_nil key [])
      (List.prefix_nil.mp isPrefix)

theorem find_update_of_unrelated {fields : Fields} {k : Key} {value : Tree} {place : List Key}
    (unrelated : ¬ Related place [k]) :
    (Tree.table (Function.update fields k value)).find place = (Tree.table fields).find place := by
  cases place with
  | nil => exact absurd (Or.inl List.nil_prefix) unrelated
  | cons first place =>
      have isOther : first ≠ k := fun same => unrelated (Or.inr (by simp [same]))
      rw [Tree.find_cons, Tree.get_table, Function.update_of_ne isOther]
      rfl

theorem related_cons {first second : List Key} {k : Key} :
    Related (k :: first) (k :: second) ↔ Related first second := by
  simp [Related, List.cons_prefix_cons]

theorem placeholder_find (k : Key) (id : Tree) (key : Key) (path : List Key) :
    (Tree.table (placeholder k id)).find (key :: path) = .nil ∨ (key = idKey ∧ path = [] ∧
      id = .scalar k ∧ (Tree.table (placeholder k id)).find (key :: path) = .scalar k) := by
  rw [Tree.find_cons, Tree.get_table, placeholder]
  split
  next same =>
    by_cases isId : key = idKey
    · subst isId
      rw [Function.update_self]
      cases path with
      | nil => exact Or.inr ⟨rfl, rfl, same, rfl⟩
      | cons next path => exact Or.inl Tree.find_nil
    · rw [Function.update_of_ne isId]
      exact Or.inl Tree.find_nil
  next => exact Or.inl Tree.find_nil

theorem recordOf_cases {k : Key} {object old : Tree} {record : Fields}
    (found : recordOf k object old = some record) : old = .table record ∨
      (old.truthy = false ∧ record = placeholder k (object.get idKey)) := by
  unfold recordOf at found
  split at found
  · exact Or.inl (congrArg Tree.table (Option.some_inj.mp found))
  · split at found
    · cases found
    · next falsy =>
        obtain ⟨id, isId, made⟩ := Option.map_eq_some_iff.mp found
        rw [Tree.get_of_index isId]
        exact Or.inr ⟨Bool.eq_false_iff.mpr falsy, made.symm⟩

section Fill

variable {deltype pobj object : Tree} {uobj own : Fields} {dobj opposite : Option Fields}
  {k next : Key} {path : List Key}

theorem fill_single_cases (filled : fill deltype pobj uobj dobj [k] = some (own, opposite)) :
    ∃ value, leaf deltype pobj k = some value ∧ own = Function.update uobj k value ∧
      opposite = dobj.map fun dobj => Function.update dobj k .nil := by
  rw [fill] at filled
  obtain ⟨value, isValue, result⟩ := Option.bind_eq_some_iff.mp filled
  obtain ⟨rfl, rfl⟩ := Prod.mk.inj (Option.some_inj.mp result)
  exact ⟨value, isValue, rfl, rfl⟩

theorem fill_cons_cases
    (filled : fill deltype pobj uobj dobj (k :: next :: path) = some (own, opposite)) :
    ∃ object record inner ignored, pobj.index k = some object ∧
      recordOf k object (uobj k) = some record ∧
      fill deltype object record none (next :: path) = some (inner, ignored) ∧
      own = Function.update uobj k (.table inner) ∧ opposite = dobj := by
  rw [fill] at filled
  simp only [Option.bind_eq_bind, Option.bind_eq_some_iff] at filled
  obtain ⟨object, atObject, record, atRecord, ⟨inner, ignored⟩, rest, result⟩ := filled
  obtain ⟨rfl, rfl⟩ := Prod.mk.inj (Option.some_inj.mp result)
  exact ⟨object, record, inner, ignored, atObject, atRecord, rest, rfl, rfl⟩

/-- Only a path of one key takes something out of the opposite table. -/
theorem fill_opposite
    (filled : fill deltype pobj uobj dobj (k :: path) = some (own, opposite)) :
    opposite = if path = [] then dobj.map fun dobj => Function.update dobj k .nil else dobj := by
  cases path with
  | nil =>
      obtain ⟨value, -, -, taken⟩ := fill_single_cases filled
      exact taken
  | cons next path =>
      obtain ⟨object, record, inner, ignored, -, -, -, -, same⟩ := fill_cons_cases filled
      exact same

theorem fill_recorded
    (filled : fill deltype pobj uobj dobj (k :: path) = some (own, opposite)) :
    (Tree.table own).find (k :: path) =
      if deltype.truthy then deltype else pobj.find (k :: path) := by
  induction path generalizing pobj uobj dobj own opposite k with
  | nil =>
      obtain ⟨value, isValue, rfl, -⟩ := fill_single_cases filled
      rw [Tree.find_cons, Tree.get_table, Function.update_self]
      unfold leaf at isValue
      split at isValue
      next deleting => rw [if_pos deleting]; exact (Option.some_inj.mp isValue).symm
      next updating => rw [if_neg updating]; exact (Tree.get_of_index isValue).symm
  | cons next path ih =>
      obtain ⟨object, record, inner, ignored, atObject, -, rest, rfl, -⟩ := fill_cons_cases filled
      rw [Tree.find_cons, Tree.get_table, Function.update_self, ih rest,
        ← Tree.get_of_index atObject]
      rfl

/-- A call that ends has found tables on its way. -/
theorem passable_of_fill
    (filled : fill deltype pobj uobj dobj (k :: path) = some (own, opposite))
    {way : List Key} {key : Key} (on : On way key (k :: path))
    (there : ((Tree.table uobj).find (way ++ [key])).truthy) :
    ∃ fields, (Tree.table uobj).find (way ++ [key]) = .table fields := by
  induction path generalizing pobj uobj dobj own opposite k way with
  | nil =>
      exact absurd on not_on_single
  | cons next path ih =>
      obtain ⟨object, record, inner, ignored, -, atRecord, rest, -, -⟩ := fill_cons_cases filled
      obtain ⟨rfl, rfl, -⟩ | ⟨way, rfl, onRest⟩ := on_cons.mp on
      · obtain isTable | ⟨falsy, -⟩ := recordOf_cases atRecord
        · exact ⟨record, isTable⟩
        · exact absurd there (Bool.eq_false_iff.mp falsy)
      · rw [List.cons_append, Tree.find_cons, Tree.get_table] at there ⊢
        obtain isTable | ⟨falsy, -⟩ := recordOf_cases atRecord
        · rw [isTable] at there ⊢
          exact ih rest onRest there
        · obtain ⟨first, tail, split⟩ := List.exists_cons_of_ne_nil
            (List.append_ne_nil_of_right_ne_nil way (List.cons_ne_nil key []))
          rw [split, Tree.find_of_falsy falsy] at there
          cases there

theorem leaf_of_exists (exists_ : pobj.find [k] ≠ .nil) :
    ∃ value, leaf deltype pobj k = some value := by
  obtain ⟨fields, rfl⟩ := Tree.eq_table_of_find exists_
  unfold leaf
  split <;> exact ⟨_, rfl⟩

theorem recordOf_of_passable {old : Tree} (isObject : ∃ fields, object = .table fields)
    (passable : old.truthy → ∃ fields, old = .table fields) :
    ∃ record, recordOf k object old = some record := by
  obtain ⟨fields, rfl⟩ := isObject
  unfold recordOf
  split
  · next record => exact ⟨record, rfl⟩
  · next noTable =>
      have falsy : ¬ old.truthy := fun truthy => by
        obtain ⟨record, isTable⟩ := passable truthy
        exact noTable record isTable
      rw [if_neg falsy]
      exact ⟨_, rfl⟩

/-- A path that exists leads past the id of an object. -/
theorem placeholder_passed (exists_ : object.find (next :: path) ≠ .nil) {way : List Key}
    {key : Key} (on : On way key (next :: path)) :
    ((Tree.table (placeholder k (object.get idKey))).find (way ++ [key])).truthy = false := by
  obtain ⟨rfl, rfl, more⟩ | ⟨way, rfl, on⟩ := on_cons.mp on
  · obtain isNil | ⟨rfl, -, isId, -⟩ := placeholder_find k (object.get idKey) key []
    · rw [List.nil_append, isNil, Tree.truthy_nil]
    · obtain ⟨first, tail, rfl⟩ := List.exists_cons_of_ne_nil more
      rw [Tree.find_cons, isId] at exists_
      exact absurd Tree.find_nil exists_
  · obtain isNil | ⟨-, nothing, -⟩ := placeholder_find k (object.get idKey) next (way ++ [key])
    · rw [List.cons_append, isNil, Tree.truthy_nil]
    · exact absurd nothing (List.append_ne_nil_of_right_ne_nil way (List.cons_ne_nil key []))

/-- A call ends when the records on its way are tables. -/
theorem fill_of_passable (exists_ : pobj.find (k :: path) ≠ .nil)
    (passable : ∀ way key, On way key (k :: path) →
      ((Tree.table uobj).find (way ++ [key])).truthy →
        ∃ fields, (Tree.table uobj).find (way ++ [key]) = .table fields) :
    ∃ result, fill deltype pobj uobj dobj (k :: path) = some result := by
  induction path generalizing pobj uobj dobj k with
  | nil =>
      obtain ⟨value, isValue⟩ := @leaf_of_exists deltype pobj k exists_
      exact ⟨_, by rw [fill, isValue]; rfl⟩
  | cons next path ih =>
      obtain ⟨fields, rfl⟩ := Tree.eq_table_of_find exists_
      have inside : (fields k).find (next :: path) ≠ .nil := exists_
      obtain ⟨record, atRecord⟩ := @recordOf_of_passable _ k (uobj k)
        (Tree.eq_table_of_find inside)
        (passable [] k (on_cons.mpr (Or.inl ⟨rfl, rfl, List.cons_ne_nil next path⟩)))
      obtain ⟨⟨inner, ignored⟩, rest⟩ := @ih _ record none _ inside fun way key on there => by
        obtain isTable | ⟨-, rfl⟩ := recordOf_cases atRecord
        · have here := passable (k :: way) key (on_cons.mpr (Or.inr ⟨way, rfl, on⟩))
          rw [List.cons_append, Tree.find_cons, Tree.get_table, isTable] at here
          exact here there
        · exact absurd there (Bool.eq_false_iff.mp (placeholder_passed inside on))
      rw [fill, Tree.index_table]
      simp only [atRecord, rest, Option.bind_eq_bind, Option.bind_some]
      exact ⟨_, rfl⟩

/-- What is kept below a record is kept below the one that was there before the call. -/
theorem kept_below {inner record : Fields} {place : List Key}
    (atRecord : recordOf k object (uobj k) = some record) (more : path ≠ [])
    (unrelated : ¬ Related place path)
    (kept : (Tree.table inner).find place = (Tree.table record).find place ∨
      NewId record inner path place) :
    (Tree.table inner).find place = (uobj k).find place ∨
      NewId uobj (Function.update uobj k (.table inner)) (k :: path) (k :: place) := by
  have below (rest : List Key) :
      (Tree.table (Function.update uobj k (.table inner))).find (k :: rest) =
        (Tree.table inner).find rest := by
    rw [Tree.find_cons, Tree.get_table, Function.update_self]
  obtain isTable | ⟨falsy, rfl⟩ := recordOf_cases atRecord
  · rw [isTable]
    obtain same | ⟨way, key, on, rfl, isNew, isId⟩ := kept
    · exact Or.inl same
    · refine Or.inr ⟨k :: way, key, on_cons.mpr (Or.inr ⟨way, rfl, on⟩), rfl, ?_, ?_⟩
      · rw [List.cons_append, Tree.find_cons, Tree.get_table, isTable]
        exact isNew
      · rw [below, isId]
  · obtain same | ⟨way, key, on, rfl, isNew, isId⟩ := kept
    · cases place with
      | nil => exact absurd (Or.inl List.nil_prefix) unrelated
      | cons first place =>
          rw [Tree.find_of_falsy falsy]
          obtain isNil | ⟨rfl, rfl, -, isId⟩ :=
            placeholder_find k (object.get idKey) first place
          · exact Or.inl (same.trans isNil)
          · refine Or.inr ⟨[], k, on_cons.mpr (Or.inl ⟨rfl, rfl, more⟩), rfl, falsy, ?_⟩
            rw [below, same, isId]
    · obtain ⟨first, tail, split⟩ := List.exists_cons_of_ne_nil
        (List.append_ne_nil_of_right_ne_nil way (List.cons_ne_nil key []))
      refine Or.inr ⟨k :: way, key, on_cons.mpr (Or.inr ⟨way, rfl, on⟩), rfl, ?_, ?_⟩
      · rw [List.cons_append, Tree.find_cons, Tree.get_table, split, Tree.find_of_falsy falsy,
          Tree.truthy_nil]
      · rw [below, isId]

/-- Records off the path stay as they are, but for the ids of new records on it. -/
theorem fill_kept
    (filled : fill deltype pobj uobj dobj (k :: path) = some (own, opposite))
    (place : List Key) (unrelated : ¬ Related place (k :: path)) :
    (Tree.table own).find place = (Tree.table uobj).find place ∨
      NewId uobj own (k :: path) place := by
  cases place with
  | nil => exact absurd (Or.inl List.nil_prefix) unrelated
  | cons first place =>
      induction path generalizing pobj uobj dobj own opposite k first place with
      | nil =>
          obtain ⟨value, -, rfl, -⟩ := fill_single_cases filled
          exact Or.inl (find_update_of_unrelated unrelated)
      | cons next path ih =>
          obtain ⟨object, record, inner, ignored, -, atRecord, rest, rfl, -⟩ :=
            fill_cons_cases filled
          by_cases same : first = k
          · subst same
            rw [related_cons] at unrelated
            rw [Tree.find_cons, Tree.get_table, Function.update_self]
            refine kept_below atRecord (List.cons_ne_nil next path) unrelated ?_
            cases place with
            | nil => exact absurd (Or.inl List.nil_prefix) unrelated
            | cons second place => exact ih rest second place unrelated
          · rw [Tree.find_cons, Tree.get_table, Function.update_of_ne same]
            exact Or.inl rfl

end Fill

theorem update_cases {changes after : Changes} {call : Call}
    (done : update changes call = some after) : ∃ own opposite,
      fill call.deltype (.table (Function.update (fun _ => .nil) call.player.id call.player.object))
        (changes.own call.deltype) (some (changes.opposite call.deltype)) call.place =
          some (own, some opposite) ∧
      after.own call.deltype = own ∧ after.opposite call.deltype = opposite := by
  obtain ⟨⟨own, opposite⟩, filled, rest⟩ := Option.bind_eq_some_iff.mp done
  obtain ⟨opposite, rfl, result⟩ := Option.bind_eq_some_iff.mp rest
  refine ⟨own, opposite, filled, ?_⟩
  obtain rfl := Option.some_inj.mp result
  unfold Changes.own Changes.opposite
  cases call.deltype.truthy <;> exact ⟨rfl, rfl⟩

section Calls

variable {changes after : Changes} {call : Call}

theorem find_place : (Tree.table (Function.update (fun _ => .nil) call.player.id
    call.player.object)).find call.place = call.player.object.find call.path := by
  rw [Call.place, Tree.find_cons, Tree.get_table, Function.update_self]

/-- Only a call for the player takes something out of the opposite table. -/
theorem update_opposite (done : update changes call = some after) :
    after.opposite call.deltype = if call.path = [] then
      Function.update (changes.opposite call.deltype) call.player.id .nil
    else changes.opposite call.deltype := by
  obtain ⟨own, opposite, filled, -, rfl⟩ := update_cases done
  have taken := fill_opposite filled
  split at taken
  next single => rw [if_pos single]; exact Option.some_inj.mp taken
  next more => rw [if_neg more]; exact Option.some_inj.mp taken

theorem update_of_passable (passable : ∀ way k, On way k call.place →
    ((Tree.table (changes.own call.deltype)).find (way ++ [k])).truthy →
      ∃ fields, (Tree.table (changes.own call.deltype)).find (way ++ [k]) = .table fields) :
    ∃ after, update changes call = some after := by
  have exists_ := call.exists_
  rw [← find_place] at exists_
  obtain ⟨⟨own, opposite⟩, filled⟩ := @fill_of_passable call.deltype _ _
    (some (changes.opposite call.deltype)) _ _ exists_ passable
  have isSome : opposite.isSome := by
    rw [fill_opposite filled]
    split <;> rfl
  obtain ⟨opposite, rfl⟩ := Option.isSome_iff_exists.mp isSome
  exact ⟨_, by rw [update, Call.place, filled]; rfl⟩

/-- A call with nothing in its way does what is asked of it. -/
theorem Clear.settled (clear : Clear changes call) (done : update changes call = some after) :
    Settled changes call after := by
  have opposite := update_opposite done
  obtain ⟨own, other, filled, rfl, -⟩ := update_cases done
  have recorded := fill_recorded filled
  refine ⟨by rw [← find_place]; exact recorded, ?_, fun way k on => ?_, fill_kept filled,
    fun place unrelated => ?_⟩
  · by_cases whole : call.path = []
    · rw [opposite, if_pos whole, Call.place, whole, Tree.find_cons, Tree.get_table,
        Function.update_self, Tree.find_empty]
    · rw [opposite, if_neg whole]
      exact (clear.nothing whole).1
  · by_cases whole : call.path = []
    · rw [Call.place, whole] at on
      exact absurd on not_on_single
    · rw [opposite, if_neg whole]
      exact (clear.nothing whole).2 way k on
  · by_cases whole : call.path = []
    · rw [Call.place, whole] at unrelated
      rw [opposite, if_pos whole, find_update_of_unrelated unrelated]
    · rw [opposite, if_neg whole]

theorem Settled.clear (settled : Settled changes call after)
    (done : update changes call = some after) : Clear changes call := by
  have opposite := update_opposite done
  obtain ⟨own, other, filled, -, -⟩ := update_cases done
  refine ⟨fun way k on there => passable_of_fill filled on there, fun more => ?_⟩
  rw [if_neg more] at opposite
  rw [← opposite]
  exact ⟨settled.cleared, settled.pruned⟩

end Calls

/-- A call that ends and leaves the two tables apart. -/
def Apart (changes : Changes) (call : Call) : Prop :=
  ∃ after, update changes call = some after ∧ Settled changes call after

theorem apart_iff_clear (history : List Call) :
    (∀ before call after, history = before ++ call :: after → Apart (run before) call) ↔
      ∀ before call after, history = before ++ call :: after → Clear (run before) call := by
  refine forall_congr' fun before => forall_congr' fun call => forall_congr' fun after =>
    imp_congr_right fun _ => ⟨?_, fun clear => ?_⟩
  · rintro ⟨after, done, settled⟩
    exact settled.clear done
  · obtain ⟨after, done⟩ := update_of_passable clear.passable
    exact ⟨after, done, clear.settled done⟩

/-- An object `{ id = 1, [2] = 5 }`. -/
def numbered : Player where
  id := .integer 1
  object := .table (Function.update (Function.update (fun _ => .nil) idKey (.scalar (.integer 1)))
    (.integer 2) (.scalar (.integer 5)))
  hasId := rfl

/-- The field that was deleted and is updated again is still recorded as deleted. -/
theorem not_apart_again : ¬ ∀ (history : List Call) before call after,
    history = before ++ call :: after → Apart (run before) call := by
  intro all
  let deletion : Call := ⟨numbered, [.integer 2], .scalar (.boolean true), nofun⟩
  let again : Call := ⟨numbered, [.integer 2], .nil, nofun⟩
  obtain ⟨after, done, settled⟩ := all [deletion, again] [deletion] again [] rfl
  obtain ⟨cleared, -⟩ := (settled.clear done).nothing (List.cons_ne_nil _ _)
  have recorded : (Tree.table ((run [deletion]).opposite again.deltype)).find again.place =
      .scalar (.boolean true) := rfl
  rw [recorded] at cleared
  cases cleared

end SyncRecords

end LuaServer
