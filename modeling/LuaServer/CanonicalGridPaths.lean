import LuaServer.ClearGridLines
import Mathlib.Data.Prod.Lex
import Mathlib.Order.WellFounded

/-!
# Canonical paths on a grid

Of the shortest paths between two cells, one that makes its diagonal steps as
early as possible only turns in three ways: it leaves a diagonal for one of its
two parts, or it turns around a cell beside it that is not free.  Every other
turn can be replaced by a shorter way, or by one with an earlier diagonal.
-/

namespace LuaServer

namespace GridCell

/-- The eight steps to another cell. -/
def directions : List GridCell :=
  [⟨0, 1⟩, ⟨0, -1⟩, ⟨1, 0⟩, ⟨-1, 0⟩, ⟨1, 1⟩, ⟨1, -1⟩, ⟨-1, 1⟩, ⟨-1, -1⟩]

/-- One of the two straight steps that make up a step. -/
def IsPart (part direction : GridCell) : Prop :=
  part ≠ ⟨0, 0⟩ ∧ (part = ⟨direction.x, 0⟩ ∨ part = ⟨0, direction.y⟩)

/-- One of the two straight steps at a right angle to a straight step. -/
def IsBeside (side part : GridCell) : Prop :=
  side = ⟨part.y, part.x⟩ ∨ side = ⟨-part.y, -part.x⟩

instance (part direction : GridCell) : Decidable (IsPart part direction) :=
  inferInstanceAs (Decidable (_ ∧ _))

instance (side part : GridCell) : Decidable (IsBeside side part) :=
  inferInstanceAs (Decidable (_ ∨ _))

theorem mem_directions {direction : GridCell} :
    direction ∈ directions ↔ direction.IsStep ∧ direction ≠ ⟨0, 0⟩ := by
  constructor
  · revert direction
    decide
  · obtain ⟨x, y⟩ := direction
    rintro ⟨⟨xGe, xLe, yGe, yLe⟩, nonzero⟩
    simp only at xGe xLe yGe yLe
    simp only [directions, List.mem_cons, GridCell.mk.injEq, List.not_mem_nil, or_false]
    simp only [ne_eq, GridCell.mk.injEq] at nonzero
    omega

end GridCell

namespace CanonicalGridPaths

open GridCell

variable {free : GridCell → Prop}

/-- The steps lead over free cells from the first cell to the last. -/
def Leads (free : GridCell → Prop) : GridCell → List GridCell → GridCell → Prop
  | first, [], last => first = last
  | first, step :: steps, last =>
      step ∈ directions ∧ free (first.advance step 1) ∧
        Leads free (first.advance step 1) steps last

/-- A step may follow another one in a cell: it is the same step or a part of it, or
it goes around a cell beside a part of it that is not free. -/
def MayFollow (free : GridCell → Prop) (cell before after : GridCell) : Prop :=
  after = before ∨ IsPart after before ∨
    ∃ part side, IsPart part before ∧ IsBeside side part ∧
      after = part.advance side 1 ∧ ¬ free (cell.advance side 1)

/-- All steps of a path from the cell may follow each other. -/
def Canonical (free : GridCell → Prop) : GridCell → List GridCell → Prop
  | _, [] => True
  | _, [_] => True
  | cell, before :: after :: steps =>
      MayFollow free (cell.advance before 1) before after ∧
        Canonical free (cell.advance before 1) (after :: steps)

/-- A diagonal step costs more than a straight one, and less than two. -/
def weight (step : GridCell) : Nat :=
  if step.x ≠ 0 ∧ step.y ≠ 0 then 3 else 2

def cost (steps : List GridCell) : Nat :=
  (steps.map weight).sum

/-- The number of diagonal steps. -/
def diagonals (steps : List GridCell) : Nat :=
  steps.countP fun step => step.x ≠ 0 ∧ step.y ≠ 0

/-- The places of all diagonal steps, added up. -/
def lateness : List GridCell → Nat
  | [] => 0
  | _ :: steps => lateness steps + diagonals steps

/-- A path is ranked by its cost, and then by how late its diagonals are. -/
def rank (steps : List GridCell) : Nat ×ₗ Nat :=
  toLex (cost steps, lateness steps)

theorem leads_append {first last : GridCell} {steps more : List GridCell} :
    Leads free first (steps ++ more) last ↔
      ∃ middle, Leads free first steps middle ∧ Leads free middle more last := by
  induction steps generalizing first with
  | nil => simp [Leads]
  | cons step steps ih =>
      simp only [List.cons_append, Leads, ih]
      tauto

@[simp]
theorem cost_append (steps more : List GridCell) :
    cost (steps ++ more) = cost steps + cost more := by
  simp [cost]

@[simp]
theorem diagonals_append (steps more : List GridCell) :
    diagonals (steps ++ more) = diagonals steps + diagonals more := by
  simp [diagonals]

theorem lateness_append (steps more : List GridCell) :
    lateness (steps ++ more) =
      lateness steps + lateness more + steps.length * diagonals more := by
  induction steps with
  | nil => simp [lateness]
  | cons step steps ih =>
      simp only [List.cons_append, lateness, ih, diagonals_append, List.length_cons]
      ring

/-- Of two pieces of a path, the first one is cheaper, or has an earlier diagonal at the
same cost. -/
def Improves (piece other : List GridCell) : Prop :=
  cost piece < cost other ∨
    cost piece = cost other ∧ piece.length = other.length ∧
      diagonals piece = diagonals other ∧ lateness piece < lateness other

instance (piece other : List GridCell) : Decidable (Improves piece other) :=
  inferInstanceAs (Decidable (_ ∨ _))

theorem Improves.rank_lt {piece other : List GridCell} (improves : Improves piece other)
    (front back : List GridCell) :
    rank (front ++ (piece ++ back)) < rank (front ++ (other ++ back)) := by
  rw [rank, rank, Prod.Lex.toLex_lt_toLex]
  simp only [cost_append, lateness_append, diagonals_append]
  rcases improves with cheaper | ⟨cost, length, diagonals, earlier⟩
  · exact Or.inl (by omega)
  · rw [cost, length, diagonals]
    exact Or.inr ⟨rfl, by omega⟩

/-- Two steps may follow each other, or go a detour, or go around a free cell. -/
theorem mayFollow_or_improves : ∀ before ∈ directions, ∀ after ∈ directions,
    after = before ∨ IsPart after before ∨
      (before.advance after 1 = ⟨0, 0⟩ ∧ Improves [] [before, after]) ∨
      (before.advance after 1 ∈ directions ∧
        Improves [before.advance after 1] [before, after]) ∨
      ∃ part ∈ directions, ∃ side ∈ directions, IsPart part before ∧ IsBeside side part ∧
        after = part.advance side 1 ∧ before.advance side 1 ∈ directions ∧
          Improves [before.advance side 1, part] [before, after] := by
  decide +kernel

theorem advance_comm (cell first second : GridCell) :
    (cell.advance first 1).advance second 1 = (cell.advance second 1).advance first 1 := by
  ext <;> simp <;> ring

theorem advance_step (cell first second : GridCell) :
    (cell.advance first 1).advance second 1 = cell.advance (first.advance second 1) 1 := by
  ext <;> simp <;> ring

/-- Two steps that may not follow each other can be replaced by something better. -/
theorem exists_improves {first : GridCell} {before after : GridCell}
    (isBefore : before ∈ directions) (isAfter : after ∈ directions)
    (free_ : free ((first.advance before 1).advance after 1))
    (turns : ¬ MayFollow free (first.advance before 1) before after) :
    ∃ piece, Leads free first piece ((first.advance before 1).advance after 1) ∧
      Improves piece [before, after] := by
  rcases mayFollow_or_improves before isBefore after isAfter with
    same | isPart | ⟨back, better⟩ | ⟨isStep, better⟩ |
      ⟨part, isPartStep, side, -, isPart, beside, rfl, isFront, better⟩
  · exact absurd (Or.inl same) turns
  · exact absurd (Or.inr (Or.inl isPart)) turns
  · refine ⟨[], ?_, better⟩
    rw [advance_step, back, Leads]
    simp [advance]
  · refine ⟨[before.advance after 1], ⟨isStep, ?_, ?_⟩, better⟩
    · rwa [← advance_step]
    · exact (advance_step first before after).symm
  · -- The cell beside is free, so the way around its corner is as short.
    have sideFree : free ((first.advance before 1).advance side 1) := by
      by_contra blocked
      exact turns (Or.inr (Or.inr ⟨part, side, isPart, beside, rfl, blocked⟩))
    have target : (first.advance before 1).advance (part.advance side 1) 1 =
        (first.advance (before.advance side 1) 1).advance part 1 := by
      rw [← advance_step, advance_comm _ part side, advance_step first before side]
    rw [target] at free_ ⊢
    rw [advance_step] at sideFree
    exact ⟨[before.advance side 1, part],
      ⟨isFront, sideFree, isPartStep, free_, rfl⟩, better⟩

theorem canonical_of_minimal {first last : GridCell} {front steps : List GridCell}
    (minimal : ∀ other, Leads free first other last → ¬ rank other < rank (front ++ steps))
    {cell : GridCell} (reaches : Leads free first front cell)
    (leads : Leads free cell steps last) : Canonical free cell steps := by
  induction steps generalizing front cell with
  | nil => trivial
  | cons before steps ih =>
      cases steps with
      | nil => trivial
      | cons after steps =>
          obtain ⟨isBefore, beforeFree, isAfter, afterFree, rest⟩ := leads
          constructor
          · by_contra turns
            obtain ⟨piece, detour, better⟩ :=
              exists_improves isBefore isAfter afterFree turns
            refine minimal (front ++ (piece ++ steps)) ?_ (better.rank_lt front steps)
            exact leads_append.mpr ⟨cell, reaches, leads_append.mpr ⟨_, detour, rest⟩⟩
          · apply @ih (front ++ [before])
            · rwa [List.append_assoc]
            · exact leads_append.mpr ⟨cell, reaches, isBefore, beforeFree, rfl⟩
            · exact ⟨isAfter, afterFree, rest⟩

theorem exists_canonical {first last : GridCell} {steps : List GridCell}
    (leads : Leads free first steps last) :
    ∃ others, Leads free first others last ∧ Canonical free first others := by
  obtain ⟨best, leadsBest, minimal⟩ :=
    (InvImage.wf rank wellFounded_lt).has_min {other | Leads free first other last} ⟨steps, leads⟩
  exact ⟨best, leadsBest, @canonical_of_minimal free first last [] best minimal first rfl leadsBest⟩

end CanonicalGridPaths

end LuaServer
