import LuaServer.LuaValues
import Mathlib.Logic.Function.Basic

/-!
# Nested tables

A value is nothing, a scalar, or a table of values.  A scalar is kept as the key it is
found by, so that a float with an integral value is the integer it is equal to.  Tables
are values here: two tables never share a part.
-/

namespace LuaServer

namespace Lua

inductive Tree where
  | nil
  | scalar (value : Key)
  | table (fields : Key → Tree)

/-- The fields of a table, which are `nil` almost everywhere. -/
abbrev Fields := Key → Tree

/-- The key `"id"`. -/
def idKey : Key := .string [105, 100]

namespace Tree

variable {tree : Tree} {fields : Fields} {key : Key} {path rest : List Key}

/-- Everything but `nil` and `false`. -/
def truthy : Tree → Bool
  | .nil => false
  | .scalar value => value ≠ .boolean false
  | .table _ => true

/-- What a value holds under a key, which is nothing for a value that is no table. -/
def get : Tree → Fields
  | .table fields => fields
  | _ => fun _ => .nil

@[simp] theorem get_table : (table fields).get = fields := rfl
@[simp] theorem get_nil : nil.get key = nil := rfl
@[simp] theorem get_scalar {value : Key} : (scalar value).get key = nil := rfl
@[simp] theorem truthy_table : (table fields).truthy = true := rfl
@[simp] theorem truthy_nil : nil.truthy = false := rfl

/-- What indexing a value gives.  It raises an error for a value that is no table: the
fields of a string are functions, through which no path leads. -/
def index : Tree → Key → Option Tree
  | .table fields, key => some (fields key)
  | _, _ => none

@[simp] theorem index_table : (table fields).index key = some (fields key) := rfl

theorem get_of_index {value : Tree} (found : tree.index key = some value) :
    tree.get key = value := by
  cases tree with
  | nil => cases found
  | scalar value => cases found
  | table fields => exact Option.some_inj.mp found

/-- What is found along a path. -/
def find : Tree → List Key → Tree
  | tree, [] => tree
  | tree, key :: path => (tree.get key).find path

@[simp] theorem find_empty : tree.find [] = tree := rfl
@[simp] theorem find_cons : tree.find (key :: path) = (tree.get key).find path := rfl

@[simp] theorem find_nil : nil.find path = nil := by
  induction path with
  | nil => rfl
  | cons key path ih => exact ih

theorem eq_table_of_get (present : tree.get key ≠ nil) : ∃ fields, tree = table fields := by
  cases tree with
  | nil => exact absurd rfl present
  | scalar value => exact absurd rfl present
  | table fields => exact ⟨fields, rfl⟩

/-- Something lies on every part of a path that leads to something. -/
theorem eq_table_of_find (present : tree.find (key :: path) ≠ nil) :
    ∃ fields, tree = table fields := by
  refine @eq_table_of_get _ key fun absent => present ?_
  rw [find_cons, absent, find_nil]

theorem find_of_falsy (falsy : tree.truthy = false) : tree.find (key :: path) = nil := by
  cases tree with
  | nil => exact find_nil
  | scalar value => exact find_nil
  | table fields => cases falsy

instance {value : Key} : (tree : Tree) → Decidable (tree = scalar value)
  | .nil => isFalse nofun
  | .table _ => isFalse nofun
  | .scalar other =>
      if same : other = value then isTrue (congrArg scalar same)
      else isFalse fun equal => same (scalar.inj equal)

instance : (tree : Tree) → Decidable (tree = nil)
  | .nil => isTrue rfl
  | .table _ => isFalse nofun
  | .scalar _ => isFalse nofun

end Tree

namespace Fields

variable {fields inner : Fields} {k pk key : Key} {value other : Tree} {path : List Key}

/-- A field of the table at a path is set.  Nothing happens where no table is. -/
def put (k : Key) (value : Tree) : (path : List Key) → Fields → Fields
  | [], fields => Function.update fields k value
  | pk :: path, fields => Function.update fields pk (match fields pk with
      | .table inner => .table (put k value path inner)
      | tree => tree)

theorem put_cons (isTable : fields pk = .table inner) : put k value (pk :: path) fields =
    Function.update fields pk (.table (put k value path inner)) := by
  rw [put, isTable]

/-- There is a table at the path. -/
def HasTable (fields : Fields) (path : List Key) : Prop :=
  ∃ inner, (Tree.table fields).find path = .table inner

theorem HasTable.cases (there : HasTable fields (pk :: path)) :
    ∃ inner, fields pk = .table inner ∧ HasTable inner path := by
  obtain ⟨last, isLast⟩ := there
  rw [Tree.find_cons, Tree.get_table] at isLast
  have isTable : ∃ inner, fields pk = .table inner := by
    cases path with
    | nil => exact ⟨last, isLast⟩
    | cons next path => exact Tree.eq_table_of_find (by rw [isLast]; exact nofun)
  obtain ⟨inner, same⟩ := isTable
  rw [same] at isLast
  exact ⟨inner, same, last, isLast⟩

theorem HasTable.cons (isTable : fields pk = .table inner) (there : HasTable inner path) :
    HasTable fields (pk :: path) := by
  obtain ⟨last, isLast⟩ := there
  exact ⟨last, by rw [Tree.find_cons, Tree.get_table, isTable, isLast]⟩

theorem HasTable.nil : HasTable fields [] := ⟨fields, rfl⟩

theorem put_hasTable (there : HasTable fields path) : HasTable (put k value path fields) path := by
  induction path generalizing fields with
  | nil => exact .nil
  | cons pk path ih =>
      obtain ⟨inner, isTable, rest⟩ := there.cases
      rw [put_cons isTable]
      exact (ih rest).cons (Function.update_self ..)

/-- A scalar field of the outermost table is not changed by what is put elsewhere. -/
theorem put_eq_scalar_iff (there : HasTable fields path) (elsewhere : path = [] → key ≠ k)
    {scalar : Key} : put k value path fields key = .scalar scalar ↔
      fields key = .scalar scalar := by
  cases path with
  | nil => rw [put, Function.update_of_ne (elsewhere rfl)]
  | cons pk path =>
      obtain ⟨inner, isTable, -⟩ := there.cases
      rw [put_cons isTable]
      by_cases same : key = pk
      · rw [same, Function.update_self, isTable]
        exact iff_of_false nofun nofun
      · rw [Function.update_of_ne same]

theorem put_nil_ne_scalar (there : HasTable fields path) {scalar : Key}
    (noScalar : fields key ≠ .scalar scalar) : put k .nil path fields key ≠ .scalar scalar := by
  intro isScalar
  by_cases elsewhere : path = [] → key ≠ k
  · exact noScalar ((put_eq_scalar_iff there elsewhere).mp isScalar)
  · obtain ⟨rfl, here⟩ := Classical.not_imp.mp elsewhere
    rw [not_not.mp here, put, Function.update_self] at isScalar
    cases isScalar

theorem put_put (there : HasTable fields path) :
    put k value path (put k other path fields) = put k value path fields := by
  induction path generalizing fields with
  | nil => exact Function.update_idem ..
  | cons pk path ih =>
      obtain ⟨inner, isTable, rest⟩ := there.cases
      rw [put_cons isTable, put_cons isTable, put_cons (Function.update_self ..), ih rest,
        Function.update_idem]

theorem find_put (there : HasTable fields path) :
    (Tree.table (put k value path fields)).find (path ++ [k]) = value := by
  induction path generalizing fields with
  | nil => exact Function.update_self ..
  | cons pk path ih =>
      obtain ⟨inner, isTable, rest⟩ := there.cases
      rw [put_cons isTable, List.cons_append, Tree.find_cons, Tree.get_table,
        Function.update_self, ih rest]

end Fields

end Lua

end LuaServer
