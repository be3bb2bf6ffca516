import LuaServer.RunConditions
import LuaServer.SyncMessages

/-!
# A replica of a changed object

Every change of an object is followed by a call of `update`, which records it.  Updates
and deletions are never pending together: a call of one kind first sends what is pending
of the other.  The replica that merges the messages is up to date after a tick as long as
every new value replaces what the replica has in its place, and no id is mistaken for one
that only says which object is meant.
-/

namespace LuaServer

namespace SyncReplicas

open Lua RunConditions

section Functions

/-- The record that `update` makes for an object kept under `pk`. -/
def newRecord (pk : Key) (id : Tree) : Key → Record :=
  if id = .scalar pk then Function.update (fun _ => .value .nil) idKey (.value (.scalar pk))
  else fun _ => .value .nil

/-- The loop of `update` in `updates`, and the assignment after it.  In one of the object's
own tables all stays as it is: the loop finds every table of the path there, and `udobj[k]`
is the same variable as `pobj[k]`. -/
def recordUpdate (k : Key) : (path : List Key) → (pobj : Tree) → (udobj : Key → Record) →
    Option (Key → Record)
  | [], pobj, udobj => do
      let v ← pobj.index k
      return Function.update udobj k (.value v)
  | pk :: path, pobj, udobj => do
      let object ← pobj.index pk
      match udobj pk with
      | .fresh below =>
          let below ← recordUpdate k path object below
          return Function.update udobj pk (.fresh below)
      | .value (.table _) => return udobj
      | .value other =>
          if other.truthy then none
          else
            let id ← object.index idKey
            let below ← recordUpdate k path object (newRecord pk id)
            return Function.update udobj pk (.fresh below)

/-- The fields of a table of deletions, and the keys it may have a value under. -/
abbrev Deletions := List Key × (Key → Deletion)

def newDeletion (pk : Key) (id : Tree) : Deletions :=
  if id = .scalar pk then ([idKey], Function.update (fun _ => .nil) idKey (.scalar pk))
  else ([], fun _ => .nil)

/-- The table of `udobj[pk]` that the loop goes on with.  Indexing any other value raises an
error. -/
def deletionsOf (pk : Key) (object : Tree) : (old : Deletion) → Option Deletions
  | .table keys fields => some (keys, fields)
  | old => if old.truthy then none else (object.index idKey).map (newDeletion pk)

/-- The loop of `update` in `deletes`, and the assignment after it. -/
def recordDeletion (k : Key) (deltype : Deletion) : (path : List Key) → (pobj : Tree) →
    (udobj : Deletions) → Option Deletions
  | [], _, udobj => some (k :: udobj.1, Function.update udobj.2 k deltype)
  | pk :: path, pobj, udobj => do
      let object ← pobj.index pk
      let below ← deletionsOf pk object (udobj.2 pk)
      let below ← recordDeletion k deltype path object below
      return (pk :: udobj.1, Function.update udobj.2 pk (.table below.1 below.2))

/-- What an assignment to the object does to a record: the object's own tables change. -/
def mirror (k : Key) (v : Tree) : (path : List Key) → (Key → Record) → Key → Record
  | [], records => records
  | pk :: path, records => Function.update records pk (match records pk with
      | .value (.table own) => .value (.table (Fields.put k v path own))
      | .value other => .value other
      | .fresh below => .fresh (mirror k v path below))

end Functions

/-- A copy of what is passed to `updfunc` or to `delfunc`. -/
inductive Message where
  | upd (id : Key) (info : Fields)
  | del (id : Key) (info : Key → Deletion)

/-- What `test` makes `updfunc` and `delfunc` do. -/
def receive (replica : Fields) : Message → Fields
  | .upd _ info => fillUpd replica info
  | .del _ info => fillDel replica info

/-- The player object, `updates`, `deletes`, and the messages so far.  The tables of the
object are its own, and those of `updates` are the object's where a record says so. -/
structure State where
  player : Fields
  updates : Key → Option (Key → Record)
  deletes : Key → Option Deletions
  messages : List Message

namespace State

variable (state : State)

def pushUpdate (id : Key) : State :=
  match state.updates id with
  | none => state
  | some upd => { state with
      updates := Function.update state.updates id none
      messages := state.messages ++ [.upd id fun key => (upd key).copy] }

def pushDeletion (id : Key) : State :=
  match state.deletes id with
  | none => state
  | some del => { state with
      deletes := Function.update state.deletes id none
      messages := state.messages ++ [.del id del.2] }

/-- `tick`, with the orders in which `pairs` visits the two tables. -/
def tick (updateIds deleteIds : List Key) : State :=
  deleteIds.foldl pushDeletion (updateIds.foldl pushUpdate state)

/-- An assignment to a field of the object. -/
def write (path : List Key) (k : Key) (v : Tree) : State :=
  { state with
    player := Fields.put k v path state.player
    updates := fun id => (state.updates id).map (mirror k v path) }

/-- `update`, for a player whose id is no table. -/
def update (path : List Key) (k : Key) (deltype : Deletion) : Option State :=
  match state.player idKey with
  | .scalar id =>
      if deltype.truthy then do
        let state := state.pushUpdate id
        let root ← recordDeletion k deltype path (.table state.player)
          ((state.deletes id).getD ([], fun _ => .nil))
        return { state with deletes := Function.update state.deletes id (some root) }
      else do
        let state := state.pushDeletion id
        let root ← recordUpdate k path (.table state.player)
          ((state.updates id).getD fun _ => .value .nil)
        return { state with updates := Function.update state.updates id (some root) }
  | _ => none

/-- The copy that has received all messages. -/
def replica (start : Fields) : Fields := state.messages.foldl receive start

end State

/-- A field is assigned or removed and recorded, or all records are sent. -/
inductive Event where
  | assign (path : List Key) (k : Key) (v : Tree)
  | remove (path : List Key) (k : Key) (mark : Option Key)
  | tick (updateIds deleteIds : List Key)

/-- What is passed as `deltype` when a value under `k` is removed. -/
def deltypeOf (k : Key) (mark : Option Key) : (value : Tree) → Deletion
  | .table fields =>
      if fields idKey = .scalar k then
        .table [idKey] (Function.update (fun _ => .nil) idKey (.scalar k))
      else .table [] fun _ => .nil
  | _ => match mark with
      | some value => .scalar value
      | none => .nil

/-- A step, which raises an error where `update` does. -/
def step (state : State) : Event → Option State
  | .assign path k v => (state.write path k v).update path k .nil
  | .remove path k mark => (state.write path k .nil).update path k
      (deltypeOf k mark ((Tree.table state.player).find (path ++ [k])))
  | .tick updateIds deleteIds => some (state.tick updateIds deleteIds)

/-- The object starts as the replica does, and nothing is pending. -/
def initial (start : Fields) : State := ⟨start, fun _ => none, fun _ => none, []⟩

def run (start : Fields) (history : List Event) : Option State :=
  history.foldlM step (initial start)

section Statements

/-- The part of a path up to the first table of the object that the records hold, or all
of the path. -/
def place : (records : Key → Record) → (path : List Key) → List Key
  | _, [] => []
  | records, key :: path => key :: match records key with
      | .fresh below => place below path
      | .value (.table _) => []
      | .value _ => path

/-- What is new at a place replaces what a replica has there.  The key of a table, as the
id of this table, is not new. -/
structure Arrives (named : Option Key) (old new : Fields) (place : List Key) : Prop where
  replaces : ∀ way last, place = way ++ [last] →
    Replaces last ((Tree.table old).find place) ((Tree.table new).find place)
  id : ∀ way parent, named.toList ++ place = way ++ [parent, idKey] →
    (Tree.table new).find place = .scalar parent → (Tree.table old).find place = .scalar parent

/-- A step of the kind the program makes: a parent exists, a value is assigned or there is
one to remove, and a tick visits all that is pending. -/
def Legal (state : State) : Event → Prop
  | .assign path _ v => Fields.HasTable state.player path ∧ v ≠ .nil
  | .remove path k _ => Fields.HasTable state.player path ∧
      (Tree.table state.player).find (path ++ [k]) ≠ .nil
  | .tick updateIds deleteIds => (∀ id, state.updates id ≠ none → id ∈ updateIds) ∧
      ∀ id, state.deletes id ≠ none → id ∈ deleteIds

/-- An assignment that reaches the replica: the id of the player stays the same while
something is pending, and what the update puts in its place replaces what the replica
has there, or what the object has when the update opens a new message. -/
structure Updatable (start : Fields) (state : State) (path : List Key) (k : Key) (v : Tree) :
    Prop where
  id : path = [] → k = idKey → ∃ id, v = .scalar id ∧
    (state.player idKey = .scalar id ∨ ∀ id, state.updates id = none ∧ state.deletes id = none)
  arrives : ∀ id, state.player idKey = .scalar id → match state.updates id with
    | some records => Arrives none (state.replica start) (Fields.put k v path state.player)
        (place records (path ++ [k]))
    | none => Arrives none state.player (Fields.put k v path state.player) (path ++ [k])

/-- A removal that reaches the replica: it is not the id of the player that is removed, and
no id with the key of its table as the mark. -/
structure Removable (path : List Key) (k : Key) (deltype : Deletion) : Prop where
  id : path = [] → k ≠ idKey
  mark : ∀ way parent, path = way ++ [parent] → k = idKey → deltype ≠ .scalar parent

/-- The condition on a step.  A removal without a mark is recorded as an update. -/
def Condition (start : Fields) (state : State) : Event → Prop
  | .assign path k v => Updatable start state path k v
  | .remove path k mark =>
      let deltype := deltypeOf k mark ((Tree.table state.player).find (path ++ [k]))
      if deltype.truthy then Removable path k deltype else Updatable start state path k .nil
  | .tick _ _ => True

/-- All steps of a run are of the kind the program makes. -/
def AllLegal (start : Fields) (history : List Event) : Prop :=
  ∀ before event after, history = before ++ event :: after →
    ∀ state, run start before = some state → Legal state event

/-- The run ends, and after a final tick the replica is the object. -/
def UpToDate (start : Fields) (history : List Event) : Prop :=
  ∃ state, run start history = some state ∧ ∀ updateIds deleteIds,
    Legal state (.tick updateIds deleteIds) →
      (state.tick updateIds deleteIds).replica start = (state.tick updateIds deleteIds).player

end Statements

section Records

variable {k pk key : Key} {v : Tree} {path : List Key} {named : Option Key}
  {records : Key → Record} {old new : Fields}

theorem place_single : place records [k] = [k] := by
  rw [place]
  split <;> rfl

theorem Arrives.below {before after : Fields} (arrives : Arrives named old new (pk :: path))
    (isBefore : old pk = .table before) (isAfter : new pk = .table after) :
    Arrives (some pk) before after path := by
  have sameBefore : (Tree.table old).find (pk :: path) = (Tree.table before).find path := by
    rw [Tree.find_cons, Tree.get_table, isBefore]
  have sameAfter : (Tree.table new).find (pk :: path) = (Tree.table after).find path := by
    rw [Tree.find_cons, Tree.get_table, isAfter]
  refine ⟨fun way last split => ?_, fun way parent split isParent => ?_⟩
  · rw [← sameBefore, ← sameAfter]
    exact arrives.replaces (pk :: way) last (congrArg (pk :: ·) split)
  · rw [← sameBefore]
    rw [← sameAfter] at isParent
    refine arrives.id (named.toList ++ way) parent ?_ isParent
    rw [List.append_assoc]
    exact congrArg (named.toList ++ ·) split

/-- Two functions are still related when both are updated. -/
theorem forall_update {Value Other : Type} (relates : Key → Value → Other → Prop)
    {values : Key → Value} {others : Key → Other} {value : Value} {other : Other}
    (elsewhere : ∀ field, field ≠ key → relates field (values field) (others field))
    (here : relates key value other) (field : Key) :
    relates field (Function.update values key value field)
      (Function.update others key other field) := by
  by_cases same : field = key
  · subst same
    rw [Function.update_self, Function.update_self]
    exact here
  · rw [Function.update_of_ne same, Function.update_of_ne same]
    exact elsewhere field same

theorem fieldsFit_update {record : Record} {tree : Tree}
    (others : ∀ other, other ≠ key → FieldFits named other (records other) (old other) (new other))
    (here : FieldFits named key record (old key) tree) :
    FieldsFit named (Function.update records key record) old (Function.update new key tree) :=
  forall_update (fun field record tree => FieldFits named field record (old field) tree)
    others here

theorem newRecord_plain (id : Tree) (key : Key) : ∃ tree, newRecord pk id key = .value tree ∧
    ∀ fields, tree ≠ .table fields := by
  unfold newRecord
  split
  · by_cases same : key = idKey
    · exact ⟨.scalar pk, by rw [same, Function.update_self], nofun⟩
    · exact ⟨.nil, by rw [Function.update_of_ne same], nofun⟩
  · exact ⟨.nil, rfl, nofun⟩

theorem mirror_newRecord {id : Tree} : mirror k v path (newRecord pk id) = newRecord pk id := by
  cases path with
  | nil => rfl
  | cons next path =>
      obtain ⟨tree, isTree, notTable⟩ := @newRecord_plain pk id next
      rw [mirror, isTree]
      cases tree with
      | nil => exact Function.update_eq_self_iff.mpr isTree.symm
      | scalar value => exact Function.update_eq_self_iff.mpr isTree.symm
      | table fields => exact absurd rfl (notTable fields)

theorem place_newRecord {id : Tree} : place (newRecord pk id) path = path := by
  cases path with
  | nil => rfl
  | cons next path =>
      obtain ⟨tree, isTree, notTable⟩ := @newRecord_plain pk id next
      rw [place, isTree]
      cases tree with
      | nil => rfl
      | scalar value => rfl
      | table fields => exact absurd rfl (notTable fields)

theorem newRecord_fits {inner : Fields} (there : Fields.HasTable inner path)
    (elsewhere : path = [] → key ≠ k) : FieldFits (some pk) key
      (newRecord pk (Fields.put k v path inner idKey) key) (inner key) (inner key) := by
  unfold newRecord
  split
  next isKept =>
    by_cases isId : key = idKey
    · subst isId
      rw [Function.update_self]
      exact ⟨fun _ => ⟨rfl, pk, (Fields.put_eq_scalar_iff there elsewhere).mp isKept⟩,
        fun noId => absurd ⟨rfl, pk, rfl, rfl⟩ noId⟩
    · rw [Function.update_of_ne isId]
      exact fieldsFit_empty key
  next => exact fieldsFit_empty key

theorem fieldFits_value (arrives : Arrives named old (Function.update new k v) [k]) :
    FieldFits named k (.value v) (old k) v := by
  have replaces := arrives.replaces [] k rfl
  have isId := fun parent => arrives.id [] parent
  simp only [Tree.find_cons, Tree.get_table, Tree.find_empty, Function.update_self] at replaces isId
  refine ⟨?_, fun noId => ?_⟩
  · rintro ⟨rfl, parent, rfl, isScalar⟩
    obtain rfl := Record.value.inj isScalar
    exact ⟨isId parent rfl rfl, parent, rfl⟩
  · cases v with
    | nil => exact replaces
    | scalar value => exact ⟨rfl, replaces⟩
    | table fields => exact ⟨rfl, replaces⟩

theorem FieldFits.of_table {record : Record} {tree : Tree} {inner : Fields}
    (fits : FieldFits named key record tree (.table inner)) :
    Fits record key tree (.table inner) := by
  refine fits.2 fun isId => ?_
  obtain ⟨-, value, isScalar⟩ := fits.1 isId
  cases isScalar

theorem fieldFits_table {record : Record} {tree : Tree} {inner : Fields}
    (fits : Fits record key tree (.table inner)) :
    FieldFits named key record tree (.table inner) := by
  refine ⟨?_, fun _ => fits⟩
  rintro ⟨-, parent, -, rfl⟩
  cases fits.1

theorem recordUpdate_new {after inner : Fields} (isNil : records pk = .value .nil)
    (isAfter : after pk = .table inner) : recordUpdate k (pk :: path) (.table after) records =
      (recordUpdate k path (.table inner) (newRecord pk (inner idKey))).map fun below =>
        Function.update records pk (.fresh below) := by
  rw [recordUpdate, Tree.index_table, isAfter, isNil]
  exact Option.map_eq_bind.symm

theorem recordUpdate_fresh {after inner : Fields} {below : Key → Record}
    (isFresh : records pk = .fresh below) (isAfter : after pk = .table inner) :
    recordUpdate k (pk :: path) (.table after) records =
      (recordUpdate k path (.table inner) below).map fun below =>
        Function.update records pk (.fresh below) := by
  rw [recordUpdate, Tree.index_table, isAfter, isFresh]
  exact Option.map_eq_bind.symm

theorem recordUpdate_own {after inner own : Fields} (isOwn : records pk = .value (.table own))
    (isAfter : after pk = .table inner) :
    recordUpdate k (pk :: path) (.table after) records = some records := by
  rw [recordUpdate, Tree.index_table, isAfter, isOwn]
  rfl

/-- Recording a new value keeps the records up to date. -/
theorem recordUpdate_fits (there : Fields.HasTable new path)
    (fit : ∀ key, (path = [] → key ≠ k) → FieldFits named key (records key) (old key) (new key))
    (arrives : Arrives named old (Fields.put k v path new) (place records (path ++ [k]))) :
    ∃ recorded, recordUpdate k path (.table (Fields.put k v path new))
      (mirror k v path records) = some recorded ∧
        FieldsFit named recorded old (Fields.put k v path new) := by
  induction path generalizing named records old new with
  | nil =>
      rw [List.nil_append, place_single] at arrives
      refine ⟨Function.update records k (.value v), ?_, ?_⟩
      · rw [recordUpdate, Tree.index_table, Fields.put, Function.update_self]
        rfl
      · exact fieldsFit_update (fun other isOther => fit other fun _ => isOther)
          (fieldFits_value arrives)
  | cons pk path ih =>
      obtain ⟨inner, isTable, below⟩ := there.cases
      have longer : pk :: path ≠ [] := List.cons_ne_nil pk path
      have others (other : Key) (_ : other ≠ pk) := fit other fun isNil => absurd isNil longer
      have here := fit pk fun isNil => absurd isNil longer
      rw [isTable] at here
      have fits := here.of_table
      rw [Fields.put_cons isTable] at arrives ⊢
      have isNew := Function.update_self pk (Tree.table (Fields.put k v path inner)) new
      rw [List.cons_append, place] at arrives
      cases isRecord : records pk with
      | value tree =>
          rw [isRecord] at fits arrives
          cases tree with
          | nil =>
              -- A new record is made, for a table that the replica has already.
              have isOld : old pk = .table inner := fits
              obtain ⟨recorded, done, fitBelow⟩ := @ih (some pk)
                (newRecord pk (Fields.put k v path inner idKey)) inner inner below
                (fun key elsewhere => newRecord_fits below elsewhere)
                (by rw [place_newRecord]; exact arrives.below isOld isNew)
              rw [mirror_newRecord] at done
              refine ⟨Function.update records pk (.fresh recorded), ?_,
                fieldsFit_update others (fieldFits_table ?_)⟩
              · rw [mirror, isRecord, recordUpdate_new (Function.update_self ..) isNew, done,
                  Option.map_some, Function.update_idem]
              · rw [isOld]
                exact fitBelow
          | scalar value => cases fits.1
          | table own =>
              -- The object's own table has changed.
              obtain ⟨same, -⟩ := fits
              obtain rfl := Tree.table.inj same
              have replaces := arrives.replaces [] pk rfl
              rw [Tree.find_cons, Tree.find_cons, Tree.get_table, Tree.get_table, isNew] at replaces
              refine ⟨Function.update records pk (.value (.table (Fields.put k v path own))), ?_,
                fieldsFit_update others (fieldFits_table ?_)⟩
              · rw [mirror, isRecord, recordUpdate_own (Function.update_self ..) isNew]
              · have present : Tree.table (Fields.put k v path own) ≠ .nil := by simp
                exact (fits_value present).mpr ⟨rfl, replaces⟩
      | fresh inside =>
          rw [isRecord] at fits arrives
          obtain ⟨before, after, isOld, isInner, fitInside⟩ := fits.fresh_cases
          obtain rfl := Tree.table.inj isInner
          obtain ⟨recorded, done, fitBelow⟩ := ih below (fun key _ => fitInside key)
            (arrives.below isOld isNew)
          refine ⟨Function.update records pk (.fresh recorded), ?_,
            fieldsFit_update others (fieldFits_table ?_)⟩
          · rw [mirror, isRecord, recordUpdate_fresh (Function.update_self ..) isNew, done,
              Option.map_some, Function.update_idem]
          · rw [isOld]
            exact fitBelow

/-- The fields of a table of the object change as the table does. -/
theorem copy_mirror_own {own : Fields} (elsewhere : path = [] → key ≠ k) :
    Fields.put k v path own key = (mirror k v path (fun key => .value (own key)) key).copy := by
  cases path with
  | nil => exact Function.update_of_ne (elsewhere rfl) ..
  | cons pk path =>
      rw [Fields.put, mirror]
      by_cases same : key = pk
      · subst same
        rw [Function.update_self, Function.update_self]
        cases own key <;> rfl
      · rw [Function.update_of_ne same, Function.update_of_ne same]
        rfl

/-- A removal that is not yet recorded: what is merged before it may keep the value in
question, and is up to date otherwise. -/
theorem mirror_merges {uobj merged : Fields} (there : Fields.HasTable new path)
    (fit : FieldsFit named records old new) (merges : Merges named old uobj merged)
    (isCopy : ∀ key, (path = [] → key ≠ k) → uobj key = (mirror k .nil path records key).copy) :
    Fields.HasTable merged path ∧ Fields.put k .nil path merged = Fields.put k .nil path new := by
  induction path generalizing named records old new uobj merged with
  | nil =>
      refine ⟨.nil, funext fun key => ?_⟩
      rw [Fields.put, Fields.put]
      by_cases same : key = k
      · rw [same, Function.update_self, Function.update_self]
      · rw [Function.update_of_ne same, Function.update_of_ne same]
        exact (fit key).merged merges (isCopy key fun _ => same)
  | cons pk path ih =>
      obtain ⟨inner, isTable, below⟩ := there.cases
      have fits := fit pk
      rw [isTable] at fits
      have fits := fits.of_table
      have longer : pk :: path ≠ [] := List.cons_ne_nil pk path
      have copied := isCopy pk fun isNil => absurd isNil longer
      rw [mirror, Function.update_self] at copied
      have others (other : Key) (isOther : other ≠ pk) : merged other = new other := by
        refine (fit other).merged merges ?_
        rw [isCopy other fun isNil => absurd isNil longer, mirror, Function.update_of_ne isOther]
      obtain ⟨within, isWithin, keeps, same⟩ : ∃ within, merged pk = .table within ∧
          Fields.HasTable within path ∧
            Fields.put k .nil path within = Fields.put k .nil path inner := by
        cases isRecord : records pk with
        | value tree =>
            rw [isRecord] at fits copied
            cases tree with
            | nil =>
                have isOld : old pk = .table inner := fits
                refine ⟨inner, ?_, below, rfl⟩
                rw [merges.of_not_scalar fun _ => copied ▸ by simp [Record.copy], copied]
                exact isOld
            | scalar value => cases fits.1
            | table own =>
                obtain ⟨same, replaces⟩ := fits
                obtain rfl := Tree.table.inj same
                rw [merges.of_not_scalar fun _ => copied ▸ by simp [Record.copy], copied]
                cases isOld : old pk with
                | table before =>
                    rw [isOld] at replaces
                    obtain ⟨within, isWithin, mergesWithin⟩ := @updated_merges pk before
                      (Fields.put k .nil path own)
                    exact ⟨within, isWithin, ih below (fieldsFit_of_replaces replaces)
                      mergesWithin fun key => copy_mirror_own⟩
                | nil =>
                    rw [isOld] at replaces
                    exact ⟨Fields.put k .nil path own,
                      stripped_of_ne (Fields.put_nil_ne_scalar below replaces),
                      Fields.put_hasTable below, Fields.put_put below⟩
                | scalar value =>
                    rw [isOld] at replaces
                    exact ⟨Fields.put k .nil path own,
                      stripped_of_ne (Fields.put_nil_ne_scalar below replaces),
                      Fields.put_hasTable below, Fields.put_put below⟩
        | fresh inside =>
            rw [isRecord] at fits copied
            obtain ⟨before, after, isOld, isInner, fitInside⟩ := fits.fresh_cases
            obtain rfl := Tree.table.inj isInner
            obtain ⟨within, isWithin, mergesWithin⟩ := @updated_merges pk before
              fun key => (mirror k .nil path inside key).copy
            refine ⟨within, ?_, ih below fitInside mergesWithin fun key _ => rfl⟩
            rw [merges.of_not_scalar fun _ => copied ▸ by simp [Record.copy], copied, isOld]
            exact isWithin
      refine ⟨keeps.cons isWithin, ?_⟩
      rw [Fields.put_cons isWithin, Fields.put_cons isTable, same]
      funext other
      by_cases isPk : other = pk
      · rw [isPk, Function.update_self, Function.update_self]
      · rw [Function.update_of_ne isPk, Function.update_of_ne isPk, others other isPk]

end Records

section Removals

variable {k pk key : Key} {v : Tree} {path keys : List Key} {named : Option Key}
  {deletions : Key → Deletion} {old new : Fields} {deltype : Deletion}

theorem recordDeletion_new {after inner : Fields} (isNil : deletions pk = .nil)
    (isAfter : after pk = .table inner) :
    recordDeletion k deltype (pk :: path) (.table after) (keys, deletions) =
      (recordDeletion k deltype path (.table inner) (newDeletion pk (inner idKey))).map fun below =>
        (pk :: keys, Function.update deletions pk (.table below.1 below.2)) := by
  rw [recordDeletion, Tree.index_table, isAfter]
  simp only [isNil]
  exact Option.map_eq_bind.symm

theorem recordDeletion_table {after inner : Fields} {inKeys : List Key}
    {inside : Key → Deletion} (isTable : deletions pk = .table inKeys inside)
    (isAfter : after pk = .table inner) :
    recordDeletion k deltype (pk :: path) (.table after) (keys, deletions) =
      (recordDeletion k deltype path (.table inner) (inKeys, inside)).map fun below =>
        (pk :: keys, Function.update deletions pk (.table below.1 below.2)) := by
  rw [recordDeletion, Tree.index_table, isAfter]
  simp only [isTable]
  exact Option.map_eq_bind.symm

theorem newDeletion_fits {inner : Fields} (there : Fields.HasTable inner path)
    (elsewhere : path = [] → key ≠ k) : DeletionFits (some pk) key
      ((newDeletion pk (Fields.put k v path inner idKey)).2 key) (inner key) (inner key) := by
  unfold newDeletion
  split
  next isKept =>
    dsimp only
    by_cases isId : key = idKey
    · subst isId
      rw [Function.update_self]
      exact ⟨fun _ => ⟨rfl, pk, (Fields.put_eq_scalar_iff there elsewhere).mp isKept⟩,
        fun noId => absurd ⟨rfl, pk, rfl, rfl⟩ noId⟩
    · rw [Function.update_of_ne isId]
      exact deletionsFit_empty key
  next => exact deletionsFit_empty key

theorem deletionsFit_update {deletion : Deletion} {tree : Tree}
    (others : ∀ other, other ≠ key →
      DeletionFits named other (deletions other) (old other) (new other))
    (here : DeletionFits named key deletion (old key) tree) :
    DeletionsFit named (Function.update deletions key deletion) old
      (Function.update new key tree) :=
  forall_update (fun field deletion tree => DeletionFits named field deletion (old field) tree)
    others here

/-- Recording a removal keeps the deletions up to date, and no table on the way arrives
empty. -/
theorem recordDeletion_fits (there : Fields.HasTable new path)
    (fit : ∀ key, (path = [] → key ≠ k) →
      DeletionFits named key (deletions key) (old key) (new key))
    (present : deltype ≠ .nil) (removes : ∀ tree, FitsDeletion deltype k tree .nil)
    (noId : ∀ way parent, named.toList ++ path = way ++ [parent] → k = idKey →
      deltype ≠ .scalar parent) :
    ∃ keys' recorded, recordDeletion k deltype path (.table (Fields.put k .nil path new))
      (keys, deletions) = some (keys', recorded) ∧
        DeletionsFit named recorded old (Fields.put k .nil path new) ∧
        ∃ key ∈ keys', recorded key ≠ .nil ∧ ¬ IsIdDeletion named key (recorded key) := by
  induction path generalizing named keys deletions old new with
  | nil =>
      have noIdHere : ¬ IsIdDeletion named k deltype := by
        rintro ⟨isId, parent, rfl, isScalar⟩
        exact noId [] parent rfl isId isScalar
      refine ⟨k :: keys, Function.update deletions k deltype, rfl,
        deletionsFit_update (fun other isOther => fit other fun _ => isOther)
          ⟨fun isId => absurd isId noIdHere, fun _ => removes (old k)⟩,
        k, List.mem_cons_self, ?_⟩
      rw [Function.update_self]
      exact ⟨present, noIdHere⟩
  | cons pk path ih =>
      obtain ⟨inner, isTable, below⟩ := there.cases
      have longer : pk :: path ≠ [] := List.cons_ne_nil pk path
      have others (other : Key) (_ : other ≠ pk) := fit other fun isNil => absurd isNil longer
      have here := fit pk fun isNil => absurd isNil longer
      rw [isTable] at here
      have fits := here.of_table
      rw [Fields.put_cons isTable]
      have isNew := Function.update_self pk (Tree.table (Fields.put k .nil path inner)) new
      have noIdBelow : ∀ way parent, (some pk).toList ++ path = way ++ [parent] → k = idKey →
          deltype ≠ .scalar parent := fun way parent split =>
        noId (named.toList ++ way) parent
          (by rw [List.append_assoc]; exact congrArg (named.toList ++ ·) split)
      -- What is below the table is recorded in a table that does not arrive empty.
      obtain ⟨keys', recorded, done, fitsBelow⟩ : ∃ keys' recorded,
          recordDeletion k deltype (pk :: path)
            (.table (Function.update new pk (.table (Fields.put k .nil path inner))))
            (keys, deletions) =
              some (pk :: keys, Function.update deletions pk (.table keys' recorded)) ∧
          FitsDeletion (.table keys' recorded) pk (old pk)
            (.table (Fields.put k .nil path inner)) := by
        cases isRecord : deletions pk with
        | nil =>
            rw [isRecord] at fits
            have isOld : old pk = .table inner := fits
            obtain ⟨keys', recorded, done, fitBelow, other, member, isThere, isNoId⟩ :=
              @ih (newDeletion pk (Fields.put k .nil path inner idKey)).1 (some pk)
                (newDeletion pk (Fields.put k .nil path inner idKey)).2 inner inner below
                (fun key elsewhere => newDeletion_fits below elsewhere) noIdBelow
            refine ⟨keys', recorded, ?_, (fitsDeletion_table
              (not_isEmpty member isThere isNoId)).mpr ⟨inner, _, isOld, rfl, fitBelow⟩⟩
            rw [recordDeletion_new isRecord isNew, done, Option.map_some]
        | scalar value =>
            rw [isRecord] at fits
            cases fits
        | table inKeys inside =>
            rw [isRecord] at fits
            by_cases isEmpty : (Deletion.stripped pk (.table inKeys inside)).isEmpty
            · cases (fitsDeletion_empty isEmpty).mp fits
            · obtain ⟨before, after, isOld, isInner, fitInside⟩ :=
                (fitsDeletion_table isEmpty).mp fits
              obtain rfl := Tree.table.inj isInner
              obtain ⟨keys', recorded, done, fitBelow, other, member, isThere, isNoId⟩ :=
                @ih inKeys (some pk) inside before inner below
                  (fun key _ => fitInside key) noIdBelow
              refine ⟨keys', recorded, ?_, (fitsDeletion_table
                (not_isEmpty member isThere isNoId)).mpr ⟨before, _, isOld, rfl, fitBelow⟩⟩
              rw [recordDeletion_table isRecord isNew, done, Option.map_some]
      have noScalar : ¬ IsIdDeletion named pk (.table keys' recorded) := by
        rintro ⟨-, parent, -, isScalar⟩
        cases isScalar
      refine ⟨_, _, done, deletionsFit_update others
        ⟨fun isId => absurd isId noScalar, fun _ => fitsBelow⟩, pk, List.mem_cons_self, ?_⟩
      rw [Function.update_self]
      exact ⟨by simp, noScalar⟩

end Removals

section States

variable {start : Fields} {state : State} {id : Key} {path : List Key} {k : Key} {v : Tree}

theorem pushUpdate_of_none (nothing : state.updates id = none) : state.pushUpdate id = state := by
  rw [State.pushUpdate, nothing]

theorem pushDeletion_of_none (nothing : state.deletes id = none) :
    state.pushDeletion id = state := by
  rw [State.pushDeletion, nothing]

theorem pushUpdate_of_some {records : Key → Record} (pending : state.updates id = some records) :
    state.pushUpdate id = { state with
      updates := Function.update state.updates id none
      messages := state.messages ++ [.upd id fun key => (records key).copy] } := by
  rw [State.pushUpdate, pending]

theorem pushDeletion_of_some {del : Deletions} (pending : state.deletes id = some del) :
    state.pushDeletion id = { state with
      deletes := Function.update state.deletes id none
      messages := state.messages ++ [.del id del.2] } := by
  rw [State.pushDeletion, pending]

/-- What is pending under an id brings the replica up to date. -/
structure Held (start : Fields) (state : State) (id : Key) : Prop where
  others : ∀ other, other ≠ id → state.updates other = none ∧ state.deletes other = none
  updates : ∀ records, state.updates id = some records → state.deletes id = none ∧
    FieldsFit none records (state.replica start) state.player
  deletes : ∀ del, state.deletes id = some del → state.updates id = none ∧
    DeletionsFit none del.2 (state.replica start) state.player
  idle : state.updates id = none → state.deletes id = none →
    state.replica start = state.player

/-- The player has an id, under which everything is pending. -/
def Synced (start : Fields) (state : State) : Prop :=
  ∃ id, state.player idKey = .scalar id ∧ Held start state id

theorem Held.of_idle (nothing : ∀ id, state.updates id = none ∧ state.deletes id = none)
    (same : state.replica start = state.player) (id : Key) : Held start state id := by
  refine ⟨fun other _ => nothing other, fun records pending => ?_, fun del pending => ?_,
    fun _ _ => same⟩
  · rw [(nothing id).1] at pending
    cases pending
  · rw [(nothing id).2] at pending
    cases pending

theorem Held.of_updates {records : Key → Record}
    (others : ∀ other, other ≠ id → state.updates other = none ∧ state.deletes other = none)
    (pending : state.updates id = some records) (nothing : state.deletes id = none)
    (fit : FieldsFit none records (state.replica start) state.player) : Held start state id := by
  refine ⟨others, fun others isOther => ?_, fun del isDel => ?_, fun noUpdates => ?_⟩
  · obtain rfl := Option.some_inj.mp (pending.symm.trans isOther)
    exact ⟨nothing, fit⟩
  · cases nothing.symm.trans isDel
  · cases pending.symm.trans noUpdates

theorem Held.of_deletes {del : Deletions}
    (others : ∀ other, other ≠ id → state.updates other = none ∧ state.deletes other = none)
    (pending : state.deletes id = some del) (nothing : state.updates id = none)
    (fit : DeletionsFit none del.2 (state.replica start) state.player) : Held start state id := by
  refine ⟨others, fun records isRecord => ?_, fun others isOther => ?_, fun _ noDeletes => ?_⟩
  · cases nothing.symm.trans isRecord
  · obtain rfl := Option.some_inj.mp (pending.symm.trans isOther)
    exact ⟨nothing, fit⟩
  · cases pending.symm.trans noDeletes

theorem Held.others_updates (held : Held start state id) (nothing : state.updates id = none)
    (other : Key) : state.updates other = none := by
  by_cases same : other = id
  · exact same ▸ nothing
  · exact (held.others other same).1

theorem Held.others_deletes (held : Held start state id) (nothing : state.deletes id = none)
    (other : Key) : state.deletes other = none := by
  by_cases same : other = id
  · exact same ▸ nothing
  · exact (held.others other same).2

theorem Held.pushUpdate (held : Held start state id) : Held start (state.pushUpdate id) id ∧
    (state.pushUpdate id).updates id = none ∧ (state.pushUpdate id).player = state.player := by
  cases pending : state.updates id with
  | none => rw [pushUpdate_of_none pending]; exact ⟨held, pending, rfl⟩
  | some records =>
      obtain ⟨nothing, fit⟩ := held.updates records pending
      rw [pushUpdate_of_some pending]
      refine ⟨Held.of_idle (fun other => ⟨?_, ?_⟩) ?_ id, Function.update_self .., rfl⟩
      · by_cases same : other = id
        · rw [same]
          exact Function.update_self ..
        · exact (Function.update_of_ne same ..).trans (held.others other same).1
      · exact held.others_deletes nothing other
      · rw [State.replica, List.foldl_append]
        exact fit.fillUpd

theorem Held.pushDeletion (held : Held start state id) : Held start (state.pushDeletion id) id ∧
    (state.pushDeletion id).deletes id = none ∧ (state.pushDeletion id).player = state.player ∧
      (state.pushDeletion id).updates = state.updates := by
  cases pending : state.deletes id with
  | none => rw [pushDeletion_of_none pending]; exact ⟨held, pending, rfl, rfl⟩
  | some del =>
      obtain ⟨nothing, fit⟩ := held.deletes del pending
      rw [pushDeletion_of_some pending]
      refine ⟨Held.of_idle (fun other => ⟨?_, ?_⟩) ?_ id, Function.update_self .., rfl, rfl⟩
      · exact held.others_updates nothing other
      · by_cases same : other = id
        · rw [same]
          exact Function.update_self ..
        · exact (Function.update_of_ne same ..).trans (held.others other same).2
      · rw [State.replica, List.foldl_append]
        exact fit.fillDel

theorem foldl_pushUpdate (held : Held start state id) (ids : List Key)
    (visited : state.updates id ≠ none → id ∈ ids) :
    ids.foldl State.pushUpdate state = state.pushUpdate id := by
  apply foldl_of_single (fun state => Held start state id) _ _ held
  · intro notVisited
    exact pushUpdate_of_none (not_not.mp fun pending => notVisited (visited pending))
  · intro state held other differs
    exact pushUpdate_of_none (held.others other differs).1
  · intro state held
    obtain ⟨heldAfter, nothing, -⟩ := held.pushUpdate
    exact ⟨heldAfter, pushUpdate_of_none nothing⟩

theorem foldl_pushDeletion (held : Held start state id) (ids : List Key)
    (visited : state.deletes id ≠ none → id ∈ ids) :
    ids.foldl State.pushDeletion state = state.pushDeletion id := by
  apply foldl_of_single (fun state => Held start state id) _ _ held
  · intro notVisited
    exact pushDeletion_of_none (not_not.mp fun pending => notVisited (visited pending))
  · intro state held other differs
    exact pushDeletion_of_none (held.others other differs).2
  · intro state held
    obtain ⟨heldAfter, nothing, -⟩ := held.pushDeletion
    exact ⟨heldAfter, pushDeletion_of_none nothing⟩

theorem Held.tick (held : Held start state id) {updateIds deleteIds : List Key}
    (legal : Legal state (.tick updateIds deleteIds)) :
    Held start (state.tick updateIds deleteIds) id ∧
      (state.tick updateIds deleteIds).player = state.player ∧
      (state.tick updateIds deleteIds).replica start = state.player := by
  obtain ⟨heldUpdates, noUpdates, samePlayer⟩ := held.pushUpdate
  have visited : (state.pushUpdate id).deletes id ≠ none → id ∈ deleteIds := by
    refine fun pending => legal.2 id fun nothing => pending ?_
    cases isPending : state.updates id with
    | none => rw [pushUpdate_of_none isPending, nothing]
    | some records => rw [pushUpdate_of_some isPending]; exact nothing
  rw [State.tick, foldl_pushUpdate held updateIds (legal.1 id),
    foldl_pushDeletion heldUpdates deleteIds visited]
  obtain ⟨heldDeletes, noDeletes, samePlayer', sameUpdates⟩ := heldUpdates.pushDeletion
  have isUpToDate := heldDeletes.idle (by rw [sameUpdates, noUpdates]) noDeletes
  rw [samePlayer', samePlayer] at isUpToDate
  exact ⟨heldDeletes, samePlayer'.trans samePlayer, isUpToDate⟩

theorem write_pushDeletion : (state.write path k v).pushDeletion id =
    (state.pushDeletion id).write path k v := by
  cases pending : state.deletes id with
  | none =>
      rw [pushDeletion_of_none pending]
      exact pushDeletion_of_none pending
  | some del =>
      rw [pushDeletion_of_some pending]
      exact pushDeletion_of_some pending

theorem update_of_falsy {deltype : Deletion} (isId : state.player idKey = .scalar id)
    (falsy : deltype.truthy = false) {pushed : State} (isPushed : state.pushDeletion id = pushed)
    {root : Key → Record}
    (recorded : recordUpdate k path (.table pushed.player)
      ((pushed.updates id).getD fun _ => .value .nil) = some root) :
    state.update path k deltype =
      some { pushed with updates := Function.update pushed.updates id (some root) } := by
  rw [State.update, isId]
  dsimp only
  rw [falsy, if_neg nofun, isPushed, recorded]
  rfl

theorem update_of_truthy {deltype : Deletion} (isId : state.player idKey = .scalar id)
    (truthy : deltype.truthy = true) {pushed : State} (isPushed : state.pushUpdate id = pushed)
    {root : Deletions}
    (recorded : recordDeletion k deltype path (.table pushed.player)
      ((pushed.deletes id).getD ([], fun _ => .nil)) = some root) :
    state.update path k deltype =
      some { pushed with deletes := Function.update pushed.deletes id (some root) } := by
  rw [State.update, isId]
  dsimp only
  rw [if_pos truthy, isPushed, recorded]
  rfl

/-- The player has an id behind an assignment, under which everything is pending. -/
theorem Updatable.newId (updatable : Updatable start state path k v)
    (held : Held start state id) (isId : state.player idKey = .scalar id)
    (there : Fields.HasTable state.player path) :
    ∃ id, (state.write path k v).player idKey = .scalar id ∧ Held start state id ∧
      match state.updates id with
      | some records => Arrives none (state.replica start) (Fields.put k v path state.player)
          (place records (path ++ [k]))
      | none => Arrives none state.player (Fields.put k v path state.player) (path ++ [k]) := by
  have arrives := updatable.arrives id isId
  by_cases elsewhere : path = [] → idKey ≠ k
  · exact ⟨id, (Fields.put_eq_scalar_iff there elsewhere).mpr isId, held, arrives⟩
  · obtain ⟨rfl, here⟩ := Classical.not_imp.mp elsewhere
    obtain rfl := not_not.mp here
    obtain ⟨newId, rfl, kept⟩ := updatable.id rfl rfl
    have put_self : Fields.put idKey (.scalar newId) [] state.player idKey = .scalar newId :=
      Function.update_self ..
    obtain same | nothing := kept
    · obtain rfl := Tree.scalar.inj (same.symm.trans isId)
      exact ⟨newId, put_self, held, arrives⟩
    · refine ⟨newId, put_self, Held.of_idle nothing
        (held.idle (nothing id).1 (nothing id).2) newId, ?_⟩
      rw [(nothing id).1] at arrives
      rw [(nothing newId).1]
      exact arrives

theorem Synced.updated {deltype : Deletion} (synced : Synced start state)
    (there : Fields.HasTable state.player path) (updatable : Updatable start state path k v)
    (falsy : deltype.truthy = false) :
    ∃ after, (state.write path k v).update path k deltype = some after ∧ Synced start after := by
  obtain ⟨oldId, isOldId, heldOld⟩ := synced
  obtain ⟨id, isId, held, arrives⟩ := updatable.newId heldOld isOldId there
  obtain ⟨heldPushed, noDeletes, samePlayer, sameUpdates⟩ := held.pushDeletion
  obtain ⟨root, recorded, fit⟩ : ∃ root, recordUpdate k path
      (.table (Fields.put k v path state.player))
      (((state.updates id).map (mirror k v path)).getD fun _ => .value .nil) = some root ∧
      FieldsFit none root ((state.pushDeletion id).replica start)
        (Fields.put k v path state.player) := by
    cases pending : state.updates id with
    | some records =>
        obtain ⟨nothing, fit⟩ := held.updates records pending
        rw [pending] at arrives
        rw [pushDeletion_of_none nothing]
        exact recordUpdate_fits there (fun key _ => fit key) arrives
    | none =>
        rw [pending] at arrives
        rw [heldPushed.idle (sameUpdates ▸ pending) noDeletes, samePlayer]
        have isEmpty : (fun _ => .value .nil) = newRecord k .nil := rfl
        rw [Option.map_none, Option.getD_none, isEmpty, ← @mirror_newRecord k k v path .nil]
        exact recordUpdate_fits there (fun key _ => fieldsFit_empty key)
          (by rw [place_newRecord]; exact arrives)
  have isPushed : (state.write path k v).pushDeletion id = (state.pushDeletion id).write path k v :=
    write_pushDeletion
  have done := @update_of_falsy _ _ path k deltype isId falsy _ isPushed root
    (by rw [State.write, samePlayer, sameUpdates]; exact recorded)
  refine ⟨_, done, id, ?_, Held.of_updates ?_ (Function.update_self ..) noDeletes ?_⟩
  · rw [State.write, samePlayer]
    exact isId
  · intro other isOther
    obtain ⟨noUpdates, noDeletes⟩ := heldPushed.others other isOther
    exact ⟨(Function.update_of_ne isOther ..).trans
      (congrArg (Option.map (mirror k v path)) noUpdates), noDeletes⟩
  · rw [State.write, samePlayer]
    exact fit

theorem deltypeOf_removes {mark : Option Key} {value : Tree}
    (truthy : (deltypeOf k mark value).truthy = true) (tree : Tree) :
    FitsDeletion (deltypeOf k mark value) k tree .nil := by
  cases value with
  | table fields =>
      rw [deltypeOf]
      split
      · exact (fitsDeletion_empty (by simp [Deletion.stripped, Deletion.isEmpty])).mpr rfl
      · exact (fitsDeletion_empty (by simp [Deletion.stripped, Deletion.isEmpty])).mpr rfl
  | nil =>
      cases mark with
      | none => cases truthy
      | some value => exact rfl
  | scalar value =>
      cases mark with
      | none => cases truthy
      | some value => exact rfl

theorem Synced.removed {deltype : Deletion} (synced : Synced start state)
    (there : Fields.HasTable state.player path) (removable : Removable path k deltype)
    (truthy : deltype.truthy = true) (removes : ∀ tree, FitsDeletion deltype k tree .nil) :
    ∃ after, (state.write path k .nil).update path k deltype = some after ∧
      Synced start after := by
  obtain ⟨id, isId, held⟩ := synced
  have isNewId : (state.write path k .nil).player idKey = .scalar id :=
    (Fields.put_eq_scalar_iff there fun whole => Ne.symm (removable.id whole)).mpr isId
  have present : deltype ≠ .nil := fun isNil => by rw [isNil] at truthy; cases truthy
  have noId : ∀ way parent, (none : Option Key).toList ++ path = way ++ [parent] → k = idKey →
      deltype ≠ .scalar parent := removable.mark
  obtain ⟨pushed, isPushed, samePlayer, others, noUpdates, fits⟩ : ∃ pushed,
      (state.write path k .nil).pushUpdate id = pushed ∧
      pushed.player = Fields.put k .nil path state.player ∧
      (∀ other, other ≠ id → pushed.updates other = none ∧ pushed.deletes other = none) ∧
      pushed.updates id = none ∧ ∃ known : Fields, Fields.HasTable known path ∧
        Fields.put k .nil path known = Fields.put k .nil path state.player ∧
        DeletionsFit none ((pushed.deletes id).getD ([], fun _ => .nil)).2
          (pushed.replica start) known := by
    refine ⟨_, rfl, ?_⟩
    cases pending : state.updates id with
    | none =>
        have nothing : (state.write path k .nil).updates id = none :=
          congrArg (Option.map (mirror k .nil path)) pending
        rw [pushUpdate_of_none nothing]
        refine ⟨rfl, fun other isOther => ⟨?_, (held.others other isOther).2⟩, nothing,
          state.player, there, rfl, ?_⟩
        · exact congrArg (Option.map (mirror k .nil path)) (held.others other isOther).1
        · change DeletionsFit none ((state.deletes id).getD ([], fun _ => .nil)).2
            (state.replica start) state.player
          cases isDel : state.deletes id with
          | none => rw [held.idle pending isDel]; exact deletionsFit_empty
          | some del => exact (held.deletes del isDel).2
    | some records =>
        obtain ⟨noDeletes, fit⟩ := held.updates records pending
        have isRecords : (state.write path k .nil).updates id = some (mirror k .nil path records) :=
          congrArg (Option.map (mirror k .nil path)) pending
        rw [pushUpdate_of_some isRecords]
        refine ⟨rfl, fun other isOther => ⟨?_, (held.others other isOther).2⟩,
          Function.update_self .., ?_⟩
        · exact (Function.update_of_ne isOther ..).trans
            (congrArg (Option.map (mirror k .nil path)) (held.others other isOther).1)
        · obtain ⟨knownThere, same⟩ := mirror_merges there fit fillUpd_merges fun key _ => rfl
          refine ⟨_, knownThere, same, ?_⟩
          change DeletionsFit none ((state.deletes id).getD ([], fun _ => .nil)).2 _ _
          rw [noDeletes, State.replica, List.foldl_append]
          exact deletionsFit_empty
  obtain ⟨known, knownThere, same, fit⟩ := fits
  obtain ⟨keys, recorded, done, fitAfter, -⟩ := @recordDeletion_fits k path
    ((pushed.deletes id).getD ([], fun _ => .nil)).1 none _ _ known deltype knownThere
    (fun key _ => fit key) present removes noId
  rw [same, ← samePlayer] at done fitAfter
  refine ⟨_, update_of_truthy isNewId truthy isPushed done, id, samePlayer ▸ isNewId,
    Held.of_deletes (fun other isOther => ⟨(others other isOther).1, ?_⟩)
      (Function.update_self ..) noUpdates fitAfter⟩
  exact (Function.update_of_ne isOther ..).trans (others other isOther).2

/-- A legal step that meets the condition keeps the replica within reach. -/
theorem Synced.step {event : Event} (synced : Synced start state) (legal : Legal state event)
    (condition : Condition start state event) :
    ∃ after, SyncReplicas.step state event = some after ∧ Synced start after := by
  cases event with
  | assign path k v => exact synced.updated legal.1 condition rfl
  | remove path k mark =>
      by_cases truthy : (deltypeOf k mark
          ((Tree.table state.player).find (path ++ [k]))).truthy = true
      · rw [Condition, if_pos truthy] at condition
        exact synced.removed legal.1 condition truthy (deltypeOf_removes truthy)
      · rw [Condition, if_neg truthy] at condition
        exact synced.updated legal.1 condition (Bool.eq_false_iff.mpr truthy)
  | tick updateIds deleteIds =>
      obtain ⟨id, isId, held⟩ := synced
      obtain ⟨heldAfter, samePlayer, -⟩ := held.tick legal
      exact ⟨_, rfl, id, samePlayer ▸ isId, heldAfter⟩

end States

/-- After a final tick the replica is the object, if all steps meet the condition. -/
theorem upToDate_of_conditions {start : Fields} {id : Key} (hasId : start idKey = .scalar id)
    (history : List Event) (legal : AllLegal start history)
    (conditions : ∀ before event after, history = before ++ event :: after →
      ∀ state, run start before = some state → Condition start state event) :
    UpToDate start history := by
  obtain ⟨state, isRun, id, isId, held⟩ : ∃ state, run start history = some state ∧
      Synced start state := by
    refine @invariant_of_condition _ history
      (fun history => ∃ state, run start history = some state ∧ Synced start state) (fun _ => True)
      (fun before event => ∀ state, run start before = some state →
        Legal state event ∧ Condition start state event)
      ⟨initial start, rfl, id, hasId, Held.of_idle (fun _ => ⟨rfl, rfl⟩) rfl id⟩
      ?_ (fun _ _ => trivial) fun before event after split state isRun =>
        ⟨legal before event after split state isRun,
          conditions before event after split state isRun⟩
    rintro before event ⟨state, isRun, synced⟩ - holds
    obtain ⟨isLegal, condition⟩ := holds state isRun
    obtain ⟨after, done, syncedAfter⟩ := synced.step isLegal condition
    refine ⟨after, ?_, syncedAfter⟩
    rw [run] at isRun ⊢
    rw [List.foldlM_append, isRun]
    exact (bind_pure _).trans done
  refine ⟨state, isRun, fun updateIds deleteIds visits => ?_⟩
  obtain ⟨-, samePlayer, isUpToDate⟩ := held.tick visits
  exact isUpToDate.trans samePlayer.symm

/-- An object `{ id = 1 }`. -/
def onlyId : Fields := Function.update (fun _ => .nil) idKey (.scalar (.integer 1))

/-- An object `{ id = 1, [2] = { [7] = { id = 7, [3] = 5 } } }`. -/
def collector : Fields := Function.update onlyId (.integer 2) (.table
  (Function.update (fun _ => .nil) (.integer 7) (.table
    (Function.update (Function.update (fun _ => .nil) idKey (.scalar (.integer 7)))
      (.integer 3) (.scalar (.integer 5))))))

/-- A field of the inner object changes and is sent.  Then this object is removed, and
another field of the table it was in changes twice. -/
def collecting : List Event := [
  .assign [.integer 2, .integer 7] (.integer 3) (.scalar (.integer 9)),
  .tick [.integer 1] [],
  .remove [.integer 2] (.integer 7) none,
  .assign [.integer 2] (.integer 8) (.scalar (.integer 4)),
  .assign [.integer 2] (.integer 8) (.scalar (.integer 6))]

/-- A scalar replaces anything, and it is no new id in a place that does not end in one. -/
theorem arrives_scalar {old new : Fields} {place : List Key} {value : Key}
    (isScalar : (Tree.table new).find place = .scalar value)
    (noId : place.getLast? ≠ some idKey) : Arrives none old new place where
  replaces := by
    intro way last split
    rw [isScalar]
    trivial
  id := by
    intro way parent split
    rw [Option.toList_none, List.nil_append] at split
    rw [split, List.getLast?_append] at noId
    exact absurd rfl noId

theorem upToDate_of_conditions_collecting : UpToDate collector collecting := by
  have both : ∀ before event after, collecting = before ++ event :: after →
      ∀ state, run collector before = some state →
        Legal state event ∧ Condition collector state event := by
    refine forall_splits_cons.mpr ⟨?_, forall_splits_cons.mpr ⟨?_, forall_splits_cons.mpr ⟨?_,
      forall_splits_cons.mpr ⟨?_, forall_splits_cons.mpr ⟨?_, forall_splits_nil⟩⟩⟩⟩⟩
    all_goals
      intro state isRun
      obtain rfl := Option.some_inj.mp isRun
    · refine ⟨⟨⟨_, rfl⟩, nofun⟩, nofun, fun id isId => ?_⟩
      exact arrives_scalar rfl (by decide)
    · refine ⟨⟨fun id pending => ?_, fun id pending => absurd rfl pending⟩, trivial⟩
      by_contra other
      exact pending (Function.update_of_ne (fun same => other (by simp [same])) ..)
    · exact ⟨⟨⟨_, rfl⟩, nofun⟩, nofun, fun way parent split => nofun⟩
    · refine ⟨⟨⟨_, rfl⟩, nofun⟩, nofun, fun id isId => ?_⟩
      cases isId
      exact arrives_scalar rfl (by decide)
    -- The update of the step before is still pending.
    · refine ⟨⟨⟨_, rfl⟩, nofun⟩, nofun, fun id isId => ?_⟩
      cases isId
      exact arrives_scalar rfl (by decide)
  exact @upToDate_of_conditions collector (.integer 1) rfl _
    (fun before event after split state isRun => (both before event after split state isRun).1)
    fun before event after split state isRun => (both before event after split state isRun).2

/-- A new object that is kept under its id loses the id on its way to the replica. -/
theorem not_upToDate_new : ¬ ∀ (start : Fields) (id : Key), start idKey = .scalar id →
    ∀ history, AllLegal start history → UpToDate start history := by
  intro all
  obtain ⟨state, isRun, upToDate⟩ := all onlyId (.integer 1) rfl
    [.assign [] (.integer 2)
      (.table (Function.update (fun _ => .nil) idKey (.scalar (.integer 2))))]
    (forall_splits_cons.mpr ⟨fun state isRun => ⟨.nil, nofun⟩, forall_splits_nil⟩)
  obtain rfl := Option.some_inj.mp isRun
  have same := upToDate [.integer 1] [] ⟨?_, ?_⟩
  · have sameId := congrArg (fun fields => (Tree.table fields).find [.integer 2, idKey]) same
    cases sameId
  · intro id pending
    by_contra other
    exact pending (Function.update_of_ne (fun same => other (by simp [same])) ..)
  · intro id pending
    exact absurd rfl pending

end SyncReplicas

end LuaServer
