import Mathlib.Data.Finset.Prod
import Mathlib.Data.Int.Order.Basic
import Mathlib.Tactic.Common
import Mathlib.Tactic.Linarith
import Mathlib.Tactic.LinearCombination
import Mathlib.Tactic.Ring

/-!
# Clear lines on a grid

Two cells of a square grid see each other when they lie on one row, one
column or one diagonal and every cell between them is free.  Clear lines are
symmetric, and two clear lines that share an end and are collinear compose,
also when the second one folds back over the first.
-/

namespace LuaServer

/-- A cell of the integer grid. -/
structure GridCell where
  x : Int
  y : Int
  deriving DecidableEq, Repr

namespace GridCell

/-- The cell `count` steps of `direction` away. -/
def advance (cell direction : GridCell) (count : Int) : GridCell :=
  ⟨cell.x + direction.x * count, cell.y + direction.y * count⟩

/-- A step to one of the eight neighbours, or no step at all. -/
def IsStep (direction : GridCell) : Prop :=
  -1 ≤ direction.x ∧ direction.x ≤ 1 ∧ -1 ≤ direction.y ∧ direction.y ≤ 1

instance (direction : GridCell) : Decidable direction.IsStep :=
  inferInstanceAs (Decidable (_ ∧ _))

def opposite (direction : GridCell) : GridCell :=
  ⟨-direction.x, -direction.y⟩

/-- Twice the signed area spanned by three cells vanishes. -/
def OnOneLine (first second third : GridCell) : Prop :=
  (second.x - first.x) * (third.y - first.y) =
    (second.y - first.y) * (third.x - first.x)

@[ext]
theorem ext {first second : GridCell} (xEq : first.x = second.x)
    (yEq : first.y = second.y) : first = second := by
  cases first
  cases second
  simp_all

@[simp]
theorem advance_x (cell direction : GridCell) (count : Int) :
    (cell.advance direction count).x = cell.x + direction.x * count :=
  rfl

@[simp]
theorem advance_y (cell direction : GridCell) (count : Int) :
    (cell.advance direction count).y = cell.y + direction.y * count :=
  rfl

@[simp]
theorem opposite_x (direction : GridCell) : direction.opposite.x = -direction.x :=
  rfl

@[simp]
theorem opposite_y (direction : GridCell) : direction.opposite.y = -direction.y :=
  rfl

@[simp]
theorem advance_zero (cell direction : GridCell) :
    cell.advance direction 0 = cell := by
  ext <;> simp

theorem advance_advance (cell direction : GridCell) (first second : Int) :
    (cell.advance direction first).advance direction second =
      cell.advance direction (first + second) := by
  ext <;> simp <;> ring

theorem advance_opposite (cell direction : GridCell) (count : Int) :
    cell.advance direction.opposite count =
      cell.advance direction (-count) := by
  ext <;> simp

theorem IsStep.opposite {direction : GridCell} (step : direction.IsStep) :
    direction.opposite.IsStep := by
  simp only [IsStep, opposite_x, opposite_y] at step ⊢
  omega

theorem IsStep.eq_or_opposite {first second : GridCell}
    (firstStep : first.IsStep) (secondStep : second.IsStep)
    (parallel : first.x * second.y = first.y * second.x) :
    first = ⟨0, 0⟩ ∨ second = ⟨0, 0⟩ ∨ second = first ∨
      second = first.opposite := by
  obtain ⟨fx, fy⟩ := first
  obtain ⟨sx, sy⟩ := second
  simp only [IsStep] at firstStep secondStep
  simp only [GridCell.opposite, GridCell.mk.injEq]
  have fxCases : fx = -1 ∨ fx = 0 ∨ fx = 1 := by omega
  have fyCases : fy = -1 ∨ fy = 0 ∨ fy = 1 := by omega
  rcases fxCases with rfl | rfl | rfl <;> rcases fyCases with rfl | rfl | rfl <;>
    simp only [zero_mul, one_mul, neg_mul] at parallel <;> omega

/-- Runs that turn on one line have parallel directions. -/
theorem parallel_of_onOneLine {first direction turned : GridCell} {count more : Nat}
    (countPos : 0 < count) (morePos : 0 < more)
    (collinear : OnOneLine first (first.advance direction count)
      ((first.advance direction count).advance turned more)) :
    direction.x * turned.y = direction.y * turned.x := by
  have scaled : (count * more : Int) *
      (direction.x * turned.y - direction.y * turned.x) = 0 := by
    simp only [OnOneLine, advance_x, advance_y] at collinear
    linear_combination collinear
  have nonzero : (count * more : Int) ≠ 0 := by positivity
  have difference := (mul_eq_zero.mp scaled).resolve_left nonzero
  omega

-- Irreducible, so that no proof ever enumerates the cells of a rectangle.
/-- The cells of a rectangle with its lowest corner at `corner`. -/
@[irreducible]
def rectangle (corner : GridCell) (width height : Nat) : Finset GridCell :=
  (Finset.range width ×ˢ Finset.range height).image
    fun sides => ⟨corner.x + sides.1, corner.y + sides.2⟩

theorem mem_rectangle {corner cell : GridCell} {width height : Nat}
    (xGe : corner.x ≤ cell.x) (xLt : cell.x < corner.x + width)
    (yGe : corner.y ≤ cell.y) (yLt : cell.y < corner.y + height) :
    cell ∈ corner.rectangle width height := by
  unfold rectangle
  simp only [Finset.mem_image, Finset.mem_product, Finset.mem_range]
  refine ⟨((cell.x - corner.x).toNat, (cell.y - corner.y).toNat), by omega, ?_⟩
  ext <;> simp only <;> omega

end GridCell

open GridCell

/-- `first` and `last` lie on one row, column or diagonal, and every cell from
one to the other, both included, is free. -/
def ClearLine (free : GridCell → Prop) (first last : GridCell) : Prop :=
  ∃ (direction : GridCell) (count : Nat), direction.IsStep ∧
    last = first.advance direction count ∧
      ∀ index : Nat, index ≤ count → free (first.advance direction index)

namespace ClearLine

variable {free : GridCell → Prop} {first middle last : GridCell}

theorem refl (isFree : free first) : ClearLine free first first := by
  refine ⟨⟨0, 0⟩, 0, by decide, by simp, ?_⟩
  intro index _
  simpa [GridCell.advance] using isFree

theorem symm (line : ClearLine free first last) :
    ClearLine free last first := by
  obtain ⟨direction, count, step, rfl, clear⟩ := line
  refine ⟨direction.opposite, count, step.opposite, ?_, ?_⟩
  · rw [advance_opposite, advance_advance]
    simp
  · intro index indexLe
    rw [advance_opposite, advance_advance]
    have cast : (count : Int) + -(index : Int) = ((count - index : Nat) : Int) := by
      omega
    rw [cast]
    exact clear _ (Nat.sub_le _ _)

theorem free_left (line : ClearLine free first last) : free first := by
  obtain ⟨direction, count, -, -, clear⟩ := line
  simpa using clear 0 (Nat.zero_le _)

theorem free_right (line : ClearLine free first last) : free last :=
  line.symm.free_left

theorem of_step {direction : GridCell} (step : direction.IsStep)
    (firstFree : free first) (lastFree : free (first.advance direction 1)) :
    ClearLine free first (first.advance direction 1) := by
  refine ⟨direction, 1, step, by simp, ?_⟩
  intro index indexLe
  obtain rfl | rfl : index = 0 ∨ index = 1 := by omega
  · simpa using firstFree
  · simpa using lastFree

private theorem trans_same {direction : GridCell} {before after : Nat}
    (step : direction.IsStep)
    (clearBefore : ∀ index : Nat, index ≤ before →
      free (first.advance direction index))
    (clearAfter : ∀ index : Nat, index ≤ after →
      free ((first.advance direction before).advance direction index)) :
    ClearLine free first
      ((first.advance direction before).advance direction after) := by
  refine ⟨direction, before + after, step, ?_, ?_⟩
  · rw [advance_advance]
    push_cast
    rfl
  · intro index indexLe
    by_cases early : index ≤ before
    · exact clearBefore index early
    · have late := clearAfter (index - before) (by omega)
      rw [advance_advance] at late
      have cast : (before : Int) + ((index - before : Nat) : Int) = index := by
        omega
      rwa [cast] at late

/-- A line that folds back over the previous one ends on a clear line too. -/
private theorem trans_back {direction : GridCell} {before after : Nat}
    (step : direction.IsStep)
    (clearBefore : ∀ index : Nat, index ≤ before →
      free (first.advance direction index))
    (clearAfter : ∀ index : Nat, index ≤ after →
      free ((first.advance direction before).advance direction.opposite index)) :
    ClearLine free first
      ((first.advance direction before).advance direction.opposite after) := by
  rw [advance_opposite, advance_advance]
  by_cases inside : after ≤ before
  · refine ⟨direction, before - after, step, ?_, ?_⟩
    · congr 1
      omega
    · intro index indexLe
      exact clearBefore index (by omega)
  · refine ⟨direction.opposite, after - before, step.opposite, ?_, ?_⟩
    · rw [advance_opposite]
      congr 1
      omega
    · intro index indexLe
      have beyond := clearAfter (before + index) (by omega)
      rw [advance_opposite, advance_advance] at beyond
      rw [advance_opposite]
      have cast : (before : Int) + -((before + index : Nat) : Int) = -(index : Int) := by
        omega
      rwa [cast] at beyond

/-- Collinear clear lines compose, whichever way the second one turns. -/
theorem trans_of_collinear (before : ClearLine free first middle)
    (after : ClearLine free middle last)
    (collinear : OnOneLine first middle last) :
    ClearLine free first last := by
  obtain ⟨direction, count, step, rfl, clear⟩ := before
  obtain ⟨turned, more, turnedStep, rfl, clearMore⟩ := after
  by_cases countZero : count = 0
  · subst count
    simp only [Nat.cast_zero, advance_zero] at clearMore ⊢
    exact ⟨turned, more, turnedStep, rfl, clearMore⟩
  by_cases moreZero : more = 0
  · subst more
    simp only [Nat.cast_zero, advance_zero]
    exact ⟨direction, count, step, rfl, clear⟩
  have parallel := parallel_of_onOneLine (Nat.pos_of_ne_zero countZero)
    (Nat.pos_of_ne_zero moreZero) collinear
  rcases step.eq_or_opposite turnedStep parallel with zero | zero | same | back
  · subst direction
    have stays : first.advance ⟨0, 0⟩ count = first := by
      simp [GridCell.advance]
    rw [stays] at clearMore ⊢
    exact ⟨turned, more, turnedStep, rfl, clearMore⟩
  · subst turned
    refine ⟨direction, count, step, ?_, clear⟩
    simp [GridCell.advance]
  · subst turned
    exact trans_same step clear clearMore
  · subst turned
    exact trans_back step clear clearMore

end ClearLine

end LuaServer
