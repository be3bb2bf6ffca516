import LuaServer.ClearGridLines
import LuaServer.MachineIntegers
import LuaServer.PredecessorLinks

/-!
# Waypoints of a found path

`Astar::find` and `Jps::genret` end with the same loop: they walk the `pre_`
links back from the end and replace the last waypoint whenever it is collinear
with the one before it and the new position.  The test multiplies 16-bit
differences, which are exact for positions of a map.
-/

namespace LuaServer

open GridCell MachineIntegers PredecessorLinks FueledLoops

/-- `struct Pos`: two 16-bit coordinates. -/
abbrev Pos := GridCell

/-- `dx1 * dy2 == dy1 * dx2` for the new position `p`, the last waypoint `pp`
and the last but one `ppp`. -/
def mergesWaypoint (p pp ppp : Pos) : Bool :=
  let dx1 := toInt16 (pp.x - p.x)
  let dy1 := toInt16 (pp.y - p.y)
  let dx2 := toInt16 (ppp.x - p.x)
  let dy2 := toInt16 (ppp.y - p.y)
  dx1 * dy2 == dy1 * dx2

/-- All coordinates are those of a map with 16-bit sides. -/
def InMapRange (p : Pos) : Prop :=
  0 ≤ p.x ∧ p.x < 32767 ∧ 0 ≤ p.y ∧ p.y < 32767

theorem collinear_of_mergesWaypoint {p pp ppp : Pos} (pRange : InMapRange p)
    (ppRange : InMapRange pp) (pppRange : InMapRange ppp)
    (merges : mergesWaypoint p pp ppp = true) : OnOneLine p pp ppp := by
  simp only [InMapRange] at pRange ppRange pppRange
  simp only [mergesWaypoint, beq_iff_eq] at merges
  rw [toInt16_of_range (by omega) (by omega),
    toInt16_of_range (by omega) (by omega),
    toInt16_of_range (by omega) (by omega),
    toInt16_of_range (by omega) (by omega)] at merges
  exact merges

/-- Merging waypoints of clear lines inside a map gives clear lines. -/
theorem clearLine_of_mergesWaypoint {free : Pos → Prop}
    (inMap : ∀ p, free p → InMapRange p) {first middle last : Pos}
    (before : ClearLine free first middle)
    (after : ClearLine free middle last)
    (merges : mergesWaypoint first middle last = true) :
    ClearLine free first last :=
  before.trans_of_collinear after
    (collinear_of_mergesWaypoint (inMap _ before.free_left)
      (inMap _ before.free_right) (inMap _ after.free_right) merges)

/-- `ret` leads from `target` back to `first` on clear lines. -/
structure IsPath (free : Pos → Prop) (first target : Pos) (ret : List Pos) : Prop where
  head : ret.head? = some target
  last : ret.getLast? = some first
  clear : ret.IsChain (ClearLine free)

/-- Walking clear links back from `target` yields a path from an unlinked
position to `target`. -/
theorem walkBack_isPath {free : Pos → Prop}
    (inMap : ∀ p, free p → InMapRange p) {links : Pos → Option Pos}
    (linked : ∀ p before, links p = some before → ClearLine free before p)
    {target : Pos} {waypoints : List Pos}
    (returns : Returns (walkBackBody links mergesWaypoint)
      (target, [target]) waypoints) :
    ∃ first, links first = none ∧ Rooted links first target ∧
      IsPath free first target waypoints.reverse := by
  have composes : ∀ first middle last, ClearLine free first middle →
      ClearLine free middle last → mergesWaypoint first middle last = true →
        ClearLine free first last :=
    fun _ _ _ before after merges =>
      clearLine_of_mergesWaypoint inMap before after merges
  obtain ⟨first, unlinked, leads, trail⟩ := walkBack_trail composes linked returns
  refine ⟨first, unlinked, leads, ?_, ?_, ?_⟩
  · rw [List.head?_reverse]
    exact trail.ends
  · rw [List.getLast?_reverse]
    exact trail.starts
  · rw [List.isChain_reverse]
    exact trail.chain.imp fun _ _ line => line.symm

section FindPath

variable {Search : Type} (body : Search → Search ⊕ Option (Pos → Option Pos))
  (initial : Search) (target : Pos)

/-- The loop that fills `ret` from the end backwards. -/
def genret (links : Pos → Option Pos) (fuel : Nat) : Option (List Pos) :=
  (loop (walkBackBody links mergesWaypoint) fuel (target, [target])).map
    List.reverse

/-- An open-list loop, followed by the backward walk if it found the target. -/
def findPath (fuel : Nat) : Option (List Pos) :=
  match loop body fuel initial with
  | none => none
  | some none => some []
  | some (some links) => genret target links fuel

variable {body initial target} {ret : List Pos}

/-- `findPath` returns when both of its loops do. -/
theorem exists_findPath_iff :
    (∃ fuel, findPath body initial target fuel = some ret) ↔
      (Returns body initial none ∧ ret = []) ∨
      ∃ links waypoints, Returns body initial (some links) ∧
        Returns (walkBackBody links mergesWaypoint) (target, [target]) waypoints ∧
        ret = waypoints.reverse := by
  constructor
  · rintro ⟨fuel, returned⟩
    cases searched : loop body fuel initial with
    | none => simp [findPath, searched] at returned
    | some found =>
        cases found with
        | none =>
            have isEmpty : ret = [] := by simpa [findPath, searched] using returned.symm
            exact Or.inl ⟨⟨fuel, searched⟩, isEmpty⟩
        | some links =>
            simp only [findPath, genret, searched, Option.map_eq_some_iff] at returned
            obtain ⟨waypoints, walked, rfl⟩ := returned
            exact Or.inr ⟨links, waypoints, ⟨fuel, searched⟩, ⟨fuel, walked⟩, rfl⟩
  · rintro (⟨⟨fuel, searched⟩, rfl⟩ |
      ⟨links, waypoints, ⟨fuel, searched⟩, ⟨more, walked⟩, rfl⟩)
    · exact ⟨fuel, by simp [findPath, searched]⟩
    · have searchedMax := loop_mono (Nat.le_max_left fuel more) searched
      have walkedMax := loop_mono (Nat.le_max_right fuel more) walked
      exact ⟨max fuel more, by simp [findPath, genret, searchedMax, walkedMax]⟩

theorem findPath_unique {other : List Pos}
    (first : ∃ fuel, findPath body initial target fuel = some ret)
    (second : ∃ fuel, findPath body initial target fuel = some other) :
    other = ret := by
  rcases exists_findPath_iff.mp first with
    ⟨returns, rfl⟩ | ⟨links, waypoints, returns, walks, rfl⟩ <;>
  rcases exists_findPath_iff.mp second with
    ⟨otherReturns, rfl⟩ | ⟨otherLinks, otherWaypoints, otherReturns, otherWalks, rfl⟩
  · rfl
  · exact absurd (returns.unique otherReturns) (by simp)
  · exact absurd (returns.unique otherReturns) (by simp)
  · obtain rfl := Option.some.inj (returns.unique otherReturns)
    rw [walks.unique otherWalks]

end FindPath

end LuaServer
