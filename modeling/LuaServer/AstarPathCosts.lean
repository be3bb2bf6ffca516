import LuaServer.AstarCorrectness
import LuaServer.FirstDiscoveries

/-!
# Costs of paths of the A* search

A returned path names the positions where it turns.  It costs as much as the links of the
end, since waypoints are merged only along straight runs of links.
-/

namespace LuaServer

namespace Astar

open GridCell PredecessorLinks FueledLoops Relation FirstDiscoveries

/-- The cost of a step in `DIRECT_COST`. -/
def directCost (direction : Pos) : Nat :=
  match DIRECT_COST.find? fun d => d.x = direction.x ∧ d.y = direction.y with
  | some d => d.cost.toNat
  | none => 0

/-- The total cost of the steps from one position straight to another one. -/
def lineCost (p q : Pos) : Nat :=
  max (q.x - p.x).natAbs (q.y - p.y).natAbs *
    directCost ⟨(q.x - p.x).sign, (q.y - p.y).sign⟩

/-- The total cost of the steps between waypoints. -/
def walkCost : List Pos → Nat
  | p :: q :: rest => lineCost p q + walkCost (q :: rest)
  | _ => 0

/-- The total cost of the steps of a returned path, which begins with the end. -/
def pathCost (ret : List Pos) : Nat :=
  walkCost ret.reverse

/-- Each position on the line is linked to the one before it. -/
def LinkedLine (links : Pos → Option Pos) (first last : Pos) : Prop :=
  ∃ (direction : Pos) (count : Nat), direction.IsStep ∧ direction ≠ ⟨0, 0⟩ ∧ 0 < count ∧
    last = first.advance direction count ∧
    ∀ index : Nat, index < count →
      links (first.advance direction (index + 1 : Nat)) = some (first.advance direction index)

section Lines

variable {links : Pos → Option Pos} {first middle last root : Pos}

theorem lineCost_advance {direction : Pos} (step : direction.IsStep)
    (nonzero : direction ≠ ⟨0, 0⟩) {count : Nat} (positive : 0 < count) (p : Pos) :
    lineCost p (p.advance direction count) = count * directCost direction := by
  obtain ⟨dx, dy⟩ := direction
  simp only [IsStep] at step
  have dxCases : dx = -1 ∨ dx = 0 ∨ dx = 1 := by omega
  have dyCases : dy = -1 ∨ dy = 0 ∨ dy = 1 := by omega
  have sign : ∀ d : Int, d = -1 ∨ d = 0 ∨ d = 1 → (d * (count : Int)).sign = d := by
    intro d cases
    rw [Int.sign_mul, Int.sign_natCast_of_ne_zero positive.ne', mul_one]
    rcases cases with rfl | rfl | rfl <;> rfl
  have longest : max (dx * (count : Int)).natAbs (dy * (count : Int)).natAbs = count := by
    have notBoth : ¬ (dx = 0 ∧ dy = 0) := by
      rintro ⟨rfl, rfl⟩
      exact nonzero rfl
    rcases dxCases with rfl | rfl | rfl <;> rcases dyCases with rfl | rfl | rfl <;> omega
  simp only [lineCost, advance, add_sub_cancel_left, sign dx dxCases, sign dy dyCases, longest]

/-- The positions of a linked line cost as much more than the one it starts at. -/
theorem linkCost_of_linkedLine {total : Nat} (line : LinkedLine links first last)
    (isCost : LinkCost links lineCost root first total) :
    LinkCost links lineCost root last (total + lineCost first last) := by
  obtain ⟨direction, count, step, nonzero, positive, rfl, linked⟩ := line
  rw [lineCost_advance step nonzero positive]
  have upTo : ∀ index ≤ count, LinkCost links lineCost root
      (first.advance direction index) (total + index * directCost direction) := by
    intro index
    induction index with
    | zero =>
        intro _
        rw [Nat.cast_zero, advance_zero, Nat.zero_mul, Nat.add_zero]
        exact isCost
    | succ index ih =>
        intro within
        have further := (ih (Nat.le_of_succ_le within)).link (linked index within)
        have stepCost := lineCost_advance step nonzero Nat.one_pos
          (first.advance direction index)
        rw [advance_advance, Nat.cast_one, one_mul] at stepCost
        rw [Nat.cast_succ, stepCost, Nat.add_assoc, ← Nat.succ_mul] at further
        rw [Nat.cast_succ]
        exact further
  exact upTo count (le_refl count)

/-- A link is a line of one step. -/
theorem linkedLine_of_link {w : World} {p before : Pos} (move : Move w before p)
    (link : links p = some before) : LinkedLine links before p := by
  obtain ⟨-, -, direction, step, nonzero, rfl⟩ := move
  refine ⟨direction, 1, step, nonzero, Nat.one_pos, rfl, fun index isFirst => ?_⟩
  obtain rfl : index = 0 := Nat.lt_one_iff.mp isFirst
  rw [Nat.cast_zero, advance_zero]
  exact link

/-- The last position of a line is linked to one on it. -/
theorem LinkedLine.link_last (line : LinkedLine links first last) :
    ∃ before, links last = some before := by
  obtain ⟨direction, count, -, -, positive, rfl, linked⟩ := line
  have link := linked (count - 1) (Nat.sub_lt positive Nat.one_pos)
  rw [Nat.sub_add_cancel positive] at link
  exact ⟨_, link⟩

/-- Some position is linked to the first of a line. -/
theorem LinkedLine.link_first (line : LinkedLine links first last) :
    ∃ next, links next = some first := by
  obtain ⟨direction, count, -, -, positive, -, linked⟩ := line
  have link := linked 0 positive
  rw [Nat.cast_zero, advance_zero] at link
  exact ⟨_, link⟩

/-- Collinear lines of links compose: links without a cycle never turn back. -/
theorem LinkedLine.trans_of_collinear (acyclic : Acyclic links)
    (before : LinkedLine links first middle) (after : LinkedLine links middle last)
    (collinear : OnOneLine first middle last) : LinkedLine links first last := by
  obtain ⟨direction, count, step, nonzero, positive, rfl, linked⟩ := before
  obtain ⟨turned, more, turnedStep, turnedNonzero, morePositive, rfl, linkedMore⟩ := after
  have parallel := parallel_of_onOneLine positive morePositive collinear
  rcases step.eq_or_opposite turnedStep parallel with zero | zero | rfl | rfl
  · exact absurd zero nonzero
  · exact absurd zero turnedNonzero
  · refine ⟨turned, count + more, step, nonzero, Nat.add_pos_left positive more, ?_, ?_⟩
    · rw [advance_advance, Nat.cast_add]
    · intro index within
      by_cases early : index < count
      · exact linked index early
      · have link := linkedMore (index - count) (by omega)
        rw [advance_advance, advance_advance, ← Nat.cast_add, ← Nat.cast_add,
          ← Nat.add_assoc, Nat.add_sub_cancel' (not_lt.mp early)] at link
        exact link
  · -- The position before the last one of the first line would be linked to that one.
    exfalso
    have back := linkedMore 0 morePositive
    have forth := linked (count - 1) (Nat.sub_lt positive Nat.one_pos)
    rw [Nat.sub_add_cancel positive] at forth
    rw [Nat.cast_zero, advance_zero, advance_opposite, advance_advance,
      show (count : Int) + -((0 + 1 : Nat) : Int) = ((count - 1 : Nat) : Int) by omega] at back
    exact acyclic _ (.tail (.single back) forth)

/-- A trail of lines costs as much as the links of its last position. -/
theorem linkCost_walkCost {waypoints : List Pos} {total : Nat}
    (isCost : LinkCost links lineCost root first total)
    (chain : waypoints.IsChain (LinkedLine links)) (starts : waypoints.head? = some first)
    (ends : waypoints.getLast? = some last) :
    LinkCost links lineCost root last (total + walkCost waypoints) := by
  induction waypoints generalizing first total with
  | nil => exact nomatch starts
  | cons p waypoints ih =>
      obtain rfl : p = first := Option.some.inj starts
      cases waypoints with
      | nil =>
          obtain rfl : p = last := Option.some.inj ends
          exact isCost
      | cons next rest =>
          obtain ⟨line, chain⟩ := List.isChain_cons_cons.mp chain
          rw [List.getLast?_cons_cons] at ends
          have further := ih (linkCost_of_linkedLine line isCost) chain rfl ends
          rw [Nat.add_assoc] at further
          exact further

end Lines

section Search

variable {w : World} {s e : Pos} {last : Search}

/-- The links of a search have no cycle. -/
theorem Invariant.acyclic (invariant : Invariant w s last) : Acyclic last.pres := by
  have backed : BackedBy last.pres (· = s) := by
    intro p before link
    refine ⟨s, rfl, ?_⟩
    rcases (invariant.linkRooted p before link).cases_head with rfl | ⟨next, isNext, rooted⟩
    · exact nomatch invariant.startUnlinked.symm.trans link
    · obtain rfl := Option.some.inj (isNext.symm.trans link)
      exact rooted
  refine acyclic_of_backedBy ?_ backed
  rintro root rfl
  exact invariant.startUnlinked

/-- The waypoints cost as much as the links of the end. -/
theorem linkCost_of_walkBack {waypoints : List Pos} (invariant : Invariant w s last)
    (rooted : Rooted last.pres s e)
    (walks : Returns (walkBackBody last.pres mergesWaypoint) (e, [e]) waypoints) :
    LinkCost last.pres lineCost s e (walkCost waypoints) := by
  have free : ∀ p before, last.pres p = some before → w.Free p ∧ w.Free before :=
    fun p before link => ⟨(invariant.linkMove p before link).2.1,
      (invariant.linkMove p before link).1⟩
  have composes : ∀ first middle final, LinkedLine last.pres first middle →
      LinkedLine last.pres middle final → mergesWaypoint first middle final = true →
        LinkedLine last.pres first final := by
    intro first middle final before after merges
    obtain ⟨next, nextLink⟩ := before.link_first
    obtain ⟨_, middleLink⟩ := before.link_last
    obtain ⟨_, finalLink⟩ := after.link_last
    exact before.trans_of_collinear invariant.acyclic after
      (collinear_of_mergesWaypoint (free _ _ nextLink).2.inMapRange
        (free _ _ middleLink).1.inMapRange (free _ _ finalLink).1.inMapRange merges)
  obtain ⟨first, unlinked, leads, trail⟩ := walkBack_trail composes
    (fun p before link => linkedLine_of_link (invariant.linkMove p before link) link) walks
  obtain rfl := rooted.eq_of_unlinked invariant.startUnlinked unlinked leads
  have isCost := linkCost_walkCost .root trail.chain trail.starts trail.ends
  rwa [Nat.zero_add] at isCost

end Search

end Astar

end LuaServer
