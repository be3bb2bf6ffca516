import Mathlib.Data.Finset.Basic
import Mathlib.Data.Finset.Card
import Mathlib.Logic.Function.Basic
import Mathlib.Tactic.Common

/-!
# Indexes from cells to what lies in them

Things lie in at most one cell each.  An index finds the things of a cell, and
drops a cell when nothing is left in it.
-/

namespace LuaServer

variable {Id Cell : Type*} [DecidableEq Id] [DecidableEq Cell]

/-- The things in each cell, for cells that are not empty. -/
abbrev CellIndex (Id Cell : Type*) := Cell → Option (Finset Id)

namespace CellIndex

/-- Put a thing into a cell. -/
def insertAt (index : CellIndex Id Cell) (cell : Cell) (id : Id) : CellIndex Id Cell :=
  Function.update index cell (some (insert id ((index cell).getD ∅)))

/-- Take a thing out of a cell, and the cell out of the index with its last one. -/
def eraseAt (index : CellIndex Id Cell) (cell : Cell) (id : Id) : CellIndex Id Cell :=
  match index cell with
  | none => index
  | some ids =>
      Function.update index cell (if ids.erase id = ∅ then none else some (ids.erase id))

/-- The thing lies in the cell. -/
def Holds (index : CellIndex Id Cell) (cell : Cell) (id : Id) : Prop :=
  ∃ ids, index cell = some ids ∧ id ∈ ids

omit [DecidableEq Id] [DecidableEq Cell] in
theorem holds_iff {index : CellIndex Id Cell} {cell : Cell} {id : Id} :
    index.Holds cell id ↔ id ∈ (index cell).getD ∅ := by
  cases found : index cell <;> simp [Holds, found]

section Rules

variable {index : CellIndex Id Cell} {cell other : Cell} {id candidate : Id}

theorem holds_insertAt : (index.insertAt cell id).Holds other candidate ↔
    other = cell ∧ candidate = id ∨ index.Holds other candidate := by
  by_cases same : other = cell
  · subst same
    simp [holds_iff, insertAt]
  · simp [holds_iff, insertAt, same]

theorem holds_eraseAt : (index.eraseAt cell id).Holds other candidate ↔
    index.Holds other candidate ∧ ¬ (other = cell ∧ candidate = id) := by
  cases found : index cell with
  | none =>
      have missing : ¬ index.Holds cell candidate := by simp [Holds, found]
      simp only [eraseAt, found]
      constructor
      · intro holds
        refine ⟨holds, ?_⟩
        rintro ⟨rfl, -⟩
        exact missing holds
      · exact And.left
  | some ids =>
      simp only [eraseAt, found]
      by_cases same : other = cell
      · subst same
        have kept : (if ids.erase id = ∅ then none else some (ids.erase id)).getD ∅ =
            ids.erase id := by
          split
          next empty => exact empty.symm
          next => rfl
        rw [holds_iff, holds_iff, Function.update_self, kept, found, Finset.mem_erase]
        simp [and_comm]
      · simp [holds_iff, same]

end Rules

/-- Every thing is found in its place alone, and no cell is empty. -/
structure Places (index : CellIndex Id Cell) (place : Id → Option Cell) : Prop where
  holds : ∀ cell id, index.Holds cell id ↔ place id = some cell
  notEmpty : ∀ cell, index cell ≠ some ∅

section Places

variable {index : CellIndex Id Cell} {place : Id → Option Cell} {cell : Cell} {id : Id}

omit [DecidableEq Id] [DecidableEq Cell] in
theorem places_empty : Places (fun _ : Cell => none) fun _ : Id => none :=
  ⟨by simp [Holds], by simp⟩

omit [DecidableEq Id] [DecidableEq Cell] in
theorem Places.isSome (places : Places index place) (here : place id = some cell) :
    (index cell).isSome := by
  obtain ⟨ids, found, -⟩ := (places.holds cell id).mpr here
  rw [found]
  rfl

theorem Places.insertAt (places : Places index place) (cell : Cell)
    (fresh : place id = none) :
    Places (index.insertAt cell id) (Function.update place id (some cell)) := by
  constructor
  · intro other candidate
    rw [holds_insertAt, places.holds]
    by_cases same : candidate = id
    · subst same
      simp [fresh, eq_comm]
    · simp [same]
  · intro other
    by_cases same : other = cell
    · subst same
      simp [CellIndex.insertAt]
    · simpa [CellIndex.insertAt, same] using places.notEmpty other

theorem Places.eraseAt (places : Places index place) (here : place id = some cell) :
    Places (index.eraseAt cell id) (Function.update place id none) := by
  constructor
  · intro other candidate
    rw [holds_eraseAt, places.holds]
    by_cases same : candidate = id
    · subst same
      simp [here, eq_comm]
    · simp [same]
  · intro other
    cases found : index cell with
    | none => simpa [CellIndex.eraseAt, found] using places.notEmpty other
    | some ids =>
        by_cases same : other = cell
        · subst same
          simp only [CellIndex.eraseAt, found, Function.update_self]
          split
          next => simp
          next left => simpa using left
        · simpa [CellIndex.eraseAt, found, same] using places.notEmpty other

end Places

end CellIndex

end LuaServer
