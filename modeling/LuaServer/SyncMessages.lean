import LuaServer.LuaTrees

/-!
# Messages about a changed object

A message of updates is merged into a copy of the object, and a message of deletions takes
parts out of it.  A table in a message that carries the key it is kept under loses this id
on arrival: it only says which object the rest is about.
-/

namespace LuaServer

namespace SyncReplicas

open Lua

variable {k key : Key} {old new : Tree} {fields : Fields}

/-- A table without the id that `fill_upd` takes out. -/
def stripped (k : Key) : Tree → Tree
  | .table v =>
      if v idKey = .scalar k then .table (Function.update v idKey .nil) else .table v
  | v => v

/-- The body of the loop of `fill_upd`: what it leaves under `k`, where `pv` was.  Below,
the id that was taken out is nothing to go through. -/
def updated (k : Key) (pv : Tree) : (v : Tree) → Tree
  | .nil => pv
  | .scalar value => .scalar value
  | .table v => match pv with
      | .table pobj => .table fun key =>
          if key = idKey ∧ v idKey = .scalar k then pobj key else updated key (pobj key) (v key)
      | _ => stripped k (.table v)
termination_by structural v => v

/-- `fill_upd`. -/
def fillUpd (pobj uobj : Fields) : Fields := fun k => updated k (pobj k) (uobj k)

/-- A value replaces an old one under a key when nothing of the old one is left behind by
merging it, and no id is lost: the old table has no fields that the new one lacks, at any
depth, and a table with the key as its id finds a table that has this id. -/
def Replaces (k : Key) (old : Tree) : (new : Tree) → Prop
  | .nil => old = .nil
  | .scalar _ => True
  | .table new => match old with
      | .table old => ∀ key, if key = idKey ∧ new idKey = .scalar k then old key = .scalar k
          else Replaces key (old key) (new key)
      | _ => new idKey ≠ .scalar k
termination_by structural new => new

theorem stripped_of_ne (noId : fields idKey ≠ .scalar k) :
    stripped k (.table fields) = .table fields := by
  rw [stripped, if_neg noId]

theorem stripped_ne (isId : fields idKey = .scalar k) :
    stripped k (.table fields) ≠ .table fields := by
  rw [stripped, if_pos isId]
  intro same
  have lost := congrFun (Tree.table.inj same) idKey
  rw [Function.update_self, isId] at lost
  cases lost

/-- Merging a value gives this value exactly when it replaces the old one. -/
theorem updated_eq_iff : updated k old new = new ↔ Replaces k old new := by
  induction new generalizing k old with
  | nil => exact Iff.rfl
  | scalar value => exact iff_of_true rfl trivial
  | table new ih =>
      have replaced : stripped k (.table new) = .table new ↔ new idKey ≠ .scalar k :=
        ⟨fun same isId => stripped_ne isId same, stripped_of_ne⟩
      cases old with
      | nil => exact replaced
      | scalar value => exact replaced
      | table old =>
          rw [updated, Tree.table.injEq, funext_iff]
          refine forall_congr' fun key => ?_
          split
          next isId => rw [isId.1, isId.2]
          next noId => exact ih key

/-- What is kept in `updates`: nothing, a scalar or one of the object's own tables, or else
a table that `update` made. -/
inductive Record where
  | value (tree : Tree)
  | fresh (fields : Key → Record)

/-- A copy of a record, as on a wire. -/
def Record.copy : Record → Tree
  | .value tree => tree
  | .fresh fields => .table fun key => (fields key).copy

/-- What is kept in `deletes`.  A table has something at most under its keys. -/
inductive Deletion where
  | nil
  | scalar (value : Key)
  | table (keys : List Key) (fields : Key → Deletion)

namespace Deletion

instance {value : Key} : (deletion : Deletion) → Decidable (deletion = scalar value)
  | .nil => isFalse nofun
  | .table _ _ => isFalse nofun
  | .scalar other =>
      if same : other = value then isTrue (congrArg scalar same)
      else isFalse fun equal => same (scalar.inj equal)

instance : (deletion : Deletion) → Decidable (deletion = nil)
  | .nil => isTrue rfl
  | .table _ _ => isFalse nofun
  | .scalar _ => isFalse nofun

def truthy : Deletion → Bool
  | .nil => false
  | .scalar value => value ≠ .boolean false
  | .table _ _ => true

/-- A table without the id that `fill_del` takes out. -/
def stripped (k : Key) : Deletion → Deletion
  | .table keys v =>
      if v idKey = .scalar k then .table keys (Function.update v idKey .nil) else .table keys v
  | v => v

/-- `not next(v)`, for a table. -/
def isEmpty : Deletion → Bool
  | .table keys v => keys.all fun key => v key = .nil
  | _ => false

end Deletion

/-- The body of the loop of `fill_del`: what it leaves under `k`, where `pv` was. -/
def erased (k : Key) (pv : Tree) : (v : Deletion) → Tree
  | .nil => pv
  | .scalar _ => .nil
  | .table keys v =>
      if (Deletion.stripped k (.table keys v)).isEmpty then .nil
      else match pv with
        | .table pobj => .table fun key =>
            if key = idKey ∧ v idKey = .scalar k then pobj key else erased key (pobj key) (v key)
        | pv => pv
termination_by structural v => v

/-- `fill_del`. -/
def fillDel (pobj : Fields) (dobj : Key → Deletion) : Fields := fun k => erased k (pobj k) (dobj k)

section Updates

/-- A record is the id of the table it is kept in, which is kept under `named`. -/
def IsId (named : Option Key) (key : Key) (record : Record) : Prop :=
  key = idKey ∧ ∃ k, named = some k ∧ record = .value (.scalar k)

/-- A record brings a replica's value up to date: parts without a record are up to date,
and each other part gets its new value.  An id that does not arrive is there. -/
def Fits : Record → (k : Key) → (old new : Tree) → Prop
  | .value .nil, _, old, new => old = new
  | .value tree, k, old, new => tree = new ∧ Replaces k old new
  | .fresh fields, k, .table old, .table new => ∀ key,
      (IsId (some k) key (fields key) → old key = new key ∧ ∃ value, new key = .scalar value) ∧
        (¬ IsId (some k) key (fields key) → Fits (fields key) key (old key) (new key))
  | .fresh _, _, _, _ => False
termination_by structural record => record

/-- What is asked of a field of a table under `named`. -/
def FieldFits (named : Option Key) (key : Key) (record : Record) (old new : Tree) : Prop :=
  (IsId named key record → old = new ∧ ∃ value, new = .scalar value) ∧
    (¬ IsId named key record → Fits record key old new)

/-- The records of a table under `named` bring the table up to date. -/
def FieldsFit (named : Option Key) (records : Key → Record) (old new : Fields) : Prop :=
  ∀ key, FieldFits named key (records key) (old key) (new key)

variable {record : Record} {records : Key → Record} {tree : Tree}

theorem fits_value (present : tree ≠ .nil) :
    Fits (.value tree) k old new ↔ tree = new ∧ Replaces k old new := by
  cases tree with
  | nil => exact absurd rfl present
  | scalar value => exact Iff.rfl
  | table fields => exact Iff.rfl

theorem Fits.fresh_cases (fits : Fits (.fresh records) k old new) :
    ∃ before after, old = .table before ∧ new = .table after ∧
      FieldsFit (some k) records before after := by
  cases old with
  | nil => exact fits.elim
  | scalar value => exact fits.elim
  | table before =>
      cases new with
      | nil => exact fits.elim
      | scalar value => exact fits.elim
      | table after => exact ⟨before, after, rfl, rfl, fits⟩

theorem FieldsFit.fresh {before after : Fields} (fit : FieldsFit (some k) records before after) :
    Fits (.fresh records) k (.table before) (.table after) := fit

theorem copy_eq_scalar {value : Key} :
    record.copy = .scalar value ↔ record = .value (.scalar value) := by
  cases record with
  | value tree => exact ⟨congrArg Record.value, Record.value.inj⟩
  | fresh records => exact iff_of_false nofun nofun

theorem Fits.updated (fits : Fits record k old new) : updated k old record.copy = new := by
  induction record generalizing k old new with
  | value tree =>
      cases tree with
      | nil => exact fits
      | scalar value => exact fits.1
      | table fields =>
          obtain ⟨rfl, replaces⟩ := fits
          exact updated_eq_iff.mpr replaces
  | fresh records ih =>
      obtain ⟨before, after, rfl, rfl, fit⟩ := fits.fresh_cases
      rw [Record.copy, SyncReplicas.updated]
      refine congrArg Tree.table (funext fun key => ?_)
      split
      next isId =>
        obtain ⟨rfl, isKey⟩ := isId
        exact ((fit idKey).1 ⟨rfl, k, rfl, copy_eq_scalar.mp isKey⟩).1
      next noId =>
        refine ih key ((fit key).2 ?_)
        rintro ⟨rfl, _, same, isKey⟩
        obtain rfl := Option.some_inj.mp same
        exact noId ⟨rfl, copy_eq_scalar.mpr isKey⟩

theorem FieldsFit.fillUpd {before after : Fields} (fit : FieldsFit none records before after) :
    fillUpd before (fun key => (records key).copy) = after := by
  funext key
  exact ((fit key).2 fun isId => nomatch isId.2.choose_spec.1).updated

/-- The fields `merged` of a table under `named` are what merging `uobj` into the table
gives. -/
def Merges (named : Option Key) (pobj uobj merged : Fields) : Prop := ∀ key,
  (key = idKey ∧ (∃ k, named = some k ∧ uobj idKey = .scalar k) → merged key = pobj key) ∧
    (¬ (key = idKey ∧ ∃ k, named = some k ∧ uobj idKey = .scalar k) →
      merged key = SyncReplicas.updated key (pobj key) (uobj key))

theorem fillUpd_merges {pobj uobj : Fields} :
    Merges none pobj uobj (SyncReplicas.fillUpd pobj uobj) :=
  fun _ => ⟨fun isId => (nomatch isId.2.choose_spec.1), fun _ => rfl⟩

theorem updated_merges {pobj uobj : Fields} : ∃ merged,
    SyncReplicas.updated k (.table pobj) (.table uobj) = .table merged ∧
      Merges (some k) pobj uobj merged := by
  refine ⟨_, rfl, fun key => ⟨?_, fun noId => if_neg ?_⟩⟩
  · rintro ⟨rfl, _, same, isId⟩
    obtain rfl := Option.some_inj.mp same
    exact if_pos ⟨rfl, isId⟩
  · rintro ⟨rfl, isId⟩
    exact noId ⟨rfl, k, rfl, isId⟩

theorem Merges.of_not_scalar {named : Option Key} {pobj uobj merged : Fields}
    (merges : Merges named pobj uobj merged) (notScalar : ∀ value, uobj key ≠ .scalar value) :
    merged key = SyncReplicas.updated key (pobj key) (uobj key) := by
  refine (merges key).2 ?_
  rintro ⟨rfl, k, -, isScalar⟩
  exact notScalar k isScalar

theorem FieldFits.merged {named : Option Key} {pobj uobj merged : Fields}
    (fits : FieldFits named key record (pobj key) new) (merges : Merges named pobj uobj merged)
    (isCopy : uobj key = record.copy) : merged key = new := by
  by_cases isId : IsId named key record
  · obtain ⟨rfl, k, rfl, rfl⟩ := isId
    rw [(merges idKey).1 ⟨rfl, k, rfl, isCopy⟩, (fits.1 ⟨rfl, k, rfl, rfl⟩).1]
  · rw [(merges key).2, isCopy, (fits.2 isId).updated]
    rintro ⟨rfl, k, rfl, isScalar⟩
    exact isId ⟨rfl, k, rfl, copy_eq_scalar.mp (isCopy ▸ isScalar)⟩

/-- The fields of a table that replaces another fit as records of it. -/
theorem fieldsFit_of_replaces {before after : Fields}
    (replaces : Replaces k (.table before) (.table after)) :
    FieldsFit (some k) (fun key => .value (after key)) before after := by
  intro key
  have here := replaces key
  constructor
  · rintro ⟨rfl, _, same, isId⟩
    obtain rfl := Option.some_inj.mp same
    have isScalar := Record.value.inj isId
    rw [if_pos ⟨rfl, isScalar⟩] at here
    exact ⟨here.trans isScalar.symm, k, isScalar⟩
  · intro noId
    rw [if_neg] at here
    · change Fits (.value (after key)) key (before key) (after key)
      cases isAfter : after key with
      | nil => rwa [isAfter] at here
      | scalar value => exact ⟨rfl, trivial⟩
      | table fields => rw [isAfter] at here; exact ⟨rfl, here⟩
    · rintro ⟨rfl, isScalar⟩
      exact noId ⟨rfl, k, rfl, congrArg Record.value isScalar⟩

theorem fieldsFit_empty {before : Fields} {named : Option Key} :
    FieldsFit named (fun _ => .value .nil) before before := by
  refine fun key => ⟨?_, fun _ => rfl⟩
  rintro ⟨-, _, -, isValue⟩
  cases isValue

end Updates

section Deletions

/-- A deletion is the id of the table it is kept in, which is kept under `named`. -/
def IsIdDeletion (named : Option Key) (key : Key) (deletion : Deletion) : Prop :=
  key = idKey ∧ ∃ k, named = some k ∧ deletion = .scalar k

/-- A deletion brings a replica's value up to date: what it deletes is gone, and the rest
is the same.  A deletion that arrives as an empty table deletes all of the value. -/
def FitsDeletion : Deletion → (k : Key) → (old new : Tree) → Prop
  | .nil, _, old, new => old = new
  | .scalar _, _, _, new => new = .nil
  | .table keys fields, k, old, new =>
      if (Deletion.stripped k (.table keys fields)).isEmpty then new = .nil
      else ∃ before after, old = .table before ∧ new = .table after ∧ ∀ key,
        (IsIdDeletion (some k) key (fields key) →
          before key = after key ∧ ∃ value, after key = .scalar value) ∧
        (¬ IsIdDeletion (some k) key (fields key) →
          FitsDeletion (fields key) key (before key) (after key))
termination_by structural deletion => deletion

/-- What is asked of a field of a table under `named`. -/
def DeletionFits (named : Option Key) (key : Key) (deletion : Deletion) (old new : Tree) : Prop :=
  (IsIdDeletion named key deletion → old = new ∧ ∃ value, new = .scalar value) ∧
    (¬ IsIdDeletion named key deletion → FitsDeletion deletion key old new)

/-- The deletions of a table under `named` bring the table up to date. -/
def DeletionsFit (named : Option Key) (deletions : Key → Deletion) (old new : Fields) : Prop :=
  ∀ key, DeletionFits named key (deletions key) (old key) (new key)

variable {deletion : Deletion} {deletions : Key → Deletion} {before after : Fields}
  {keys : List Key} {named : Option Key}

theorem fitsDeletion_empty (isEmpty : (Deletion.stripped k (.table keys deletions)).isEmpty) :
    FitsDeletion (.table keys deletions) k old new ↔ new = .nil := by
  rw [FitsDeletion, if_pos isEmpty]

theorem fitsDeletion_table
    (notEmpty : ¬ (Deletion.stripped k (.table keys deletions)).isEmpty) :
    FitsDeletion (.table keys deletions) k old new ↔
      ∃ before after, old = .table before ∧ new = .table after ∧
        DeletionsFit (some k) deletions before after := by
  rw [FitsDeletion, if_neg notEmpty]
  rfl

theorem FitsDeletion.erased (fits : FitsDeletion deletion k old new) :
    erased k old deletion = new := by
  induction deletion generalizing k old new with
  | nil => exact fits
  | scalar value => exact fits.symm
  | table keys deletions ih =>
      by_cases isEmpty : (Deletion.stripped k (.table keys deletions)).isEmpty
      · unfold SyncReplicas.erased
        rw [if_pos isEmpty, (fitsDeletion_empty isEmpty).mp fits]
      · obtain ⟨before, after, rfl, rfl, fit⟩ := (fitsDeletion_table isEmpty).mp fits
        rw [SyncReplicas.erased, if_neg isEmpty]
        refine congrArg Tree.table (funext fun key => ?_)
        split
        next isId =>
          obtain ⟨rfl, isKey⟩ := isId
          exact ((fit idKey).1 ⟨rfl, k, rfl, isKey⟩).1
        next noId =>
          refine ih key ((fit key).2 ?_)
          rintro ⟨rfl, _, same, isKey⟩
          obtain rfl := Option.some_inj.mp same
          exact noId ⟨rfl, isKey⟩

theorem DeletionsFit.fillDel (fit : DeletionsFit none deletions before after) :
    fillDel before deletions = after := by
  funext key
  exact ((fit key).2 fun isId => nomatch isId.2.choose_spec.1).erased

theorem deletionsFit_empty : DeletionsFit named (fun _ => .nil) before before := by
  refine fun key => ⟨?_, fun _ => rfl⟩
  rintro ⟨-, _, -, isValue⟩
  cases isValue

/-- A table is not empty on arrival when it has something other than its id. -/
theorem not_isEmpty (member : key ∈ keys) (present : deletions key ≠ .nil)
    (noId : ¬ IsIdDeletion (some k) key (deletions key)) :
    ¬ (Deletion.stripped k (.table keys deletions)).isEmpty := by
  rw [Deletion.stripped]
  split
  next isId =>
    intro isEmpty
    have absent := of_decide_eq_true (List.all_eq_true.mp isEmpty key member)
    by_cases here : key = idKey
    · exact noId ⟨here, k, rfl, here ▸ isId⟩
    · rw [Function.update_of_ne here] at absent
      exact present absent
  next =>
    intro isEmpty
    exact present (of_decide_eq_true (List.all_eq_true.mp isEmpty key member))

theorem DeletionFits.of_table {tree : Tree} {inner : Fields}
    (fits : DeletionFits named key deletion tree (.table inner)) :
    FitsDeletion deletion key tree (.table inner) := by
  refine fits.2 fun isId => ?_
  obtain ⟨-, value, isScalar⟩ := fits.1 isId
  cases isScalar

end Deletions

end SyncReplicas

end LuaServer
