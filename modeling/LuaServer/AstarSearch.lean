import LuaServer.OrderedMultisets
import LuaServer.WaypointMerging
import Mathlib.Data.Nat.Sqrt

/-!
# The A* search of the skill world

`Astar::find` over the blocks of a `World`.  The search keeps a multiset of
open states ordered by weight, a set of closed positions and the predecessor
of every discovered position.  The heuristic is an argument, because nothing
but the order in which states are popped depends on it; the world's own
heuristic is `cost`.
-/

namespace LuaServer

open GridCell MachineIntegers PredecessorLinks OrderedMultisets FueledLoops

/-- The map part of `World`: its sides and the blocked positions. -/
structure World where
  len : Int
  wid : Int
  block : Pos → Option Int
  lenInt16 : -32768 ≤ len ∧ len ≤ 32767
  widInt16 : -32768 ≤ wid ∧ wid ≤ 32767

namespace World

/-- `World::inarea`. -/
def inarea (w : World) (p : Pos) : Bool :=
  if p.x < 0 || p.x > w.len - 1 then false
  else if p.y < 0 || p.y > w.wid - 1 then false
  else true

/-- `World::isblock`: outside the map everything is blocked. -/
def isblock (w : World) (p : Pos) : Bool :=
  if !w.inarea p then true else (w.block p).isSome

/-- `World::setblock`: zero clears a position of the map. -/
def setblock (w : World) (p : Pos) (v : Int) : World :=
  if !w.inarea p then w
  else if v == 0 then { w with block := Function.update w.block p none }
  else { w with block := Function.update w.block p (some v) }

/-- A position an actor may stand on. -/
def Free (w : World) (p : Pos) : Prop :=
  w.isblock p = false

instance (w : World) (p : Pos) : Decidable (w.Free p) :=
  inferInstanceAs (Decidable (_ = _))

theorem inarea_iff (w : World) (p : Pos) : w.inarea p = true ↔
    0 ≤ p.x ∧ p.x ≤ w.len - 1 ∧ 0 ≤ p.y ∧ p.y ≤ w.wid - 1 := by
  simp only [inarea, Bool.or_eq_true, decide_eq_true_eq]
  split
  · simp; omega
  · split <;> simp <;> omega

theorem Free.inarea {w : World} {p : Pos} (free : w.Free p) :
    w.inarea p = true := by
  simp only [Free, isblock] at free
  split at free <;> simp_all

theorem Free.inMapRange {w : World} {p : Pos} (free : w.Free p) :
    InMapRange p := by
  have inside := (w.inarea_iff p).mp free.inarea
  have lenBound := w.lenInt16
  have widBound := w.widInt16
  simp only [InMapRange]
  omega

end World

namespace Astar

/-- `Astar::State`. -/
structure State where
  x : Int
  y : Int
  cost : Int
  weigh : Int
  deriving DecidableEq, Repr

/-- `Dircost`: a neighbour and the cost of the step. -/
structure Dircost where
  x : Int
  y : Int
  cost : Int
  deriving DecidableEq, Repr

def LWEIGH : Int := 100
def HWEIGH : Int := 141

def DIRECT_COST : List Dircost :=
  [⟨0, 1, LWEIGH⟩, ⟨0, -1, LWEIGH⟩, ⟨1, 0, LWEIGH⟩, ⟨-1, 0, LWEIGH⟩,
    ⟨1, 1, HWEIGH⟩, ⟨-1, 1, HWEIGH⟩, ⟨1, -1, HWEIGH⟩, ⟨-1, -1, HWEIGH⟩]

/-- `cost`: a hundred times the distance, rounded down. -/
def cost (s e : Pos) : Int :=
  let dx := toInt16 (s.x - e.x)
  let dy := toInt16 (s.y - e.y)
  Nat.sqrt (10000 * (dx * dx + dy * dy).toNat)

/-- The local variables of `Astar::find`. -/
structure Search where
  openlist : List State
  closelist : List Pos
  pres : Pos → Option Pos

def State.pos (s : State) : Pos :=
  ⟨s.x, s.y⟩

/-- The position one entry of `DIRECT_COST` leads to. -/
def Dircost.target (d : Dircost) (p : Pos) : Pos :=
  ⟨toInt16 (p.x + d.x), toInt16 (p.y + d.y)⟩

section Find

variable (w : World) (heuristic : Pos → Pos → Int) (e : Pos) (quick : Bool)

/-- The body of the loop over `DIRECT_COST`: look at one neighbour of the
popped state `s`. -/
def visit (s : State) (search : Search) (d : Dircost) : Search :=
  let p1 := d.target s.pos
  let cost1 := toInt32 (s.cost + d.cost)
  if w.isblock p1 then search
  else if p1 ∈ search.closelist then search
  else
    let weigh :=
      if p1 = e then 0
      else if quick then heuristic p1 e
      else toInt32 (cost1 + heuristic p1 e)
    match search.pres p1 with
    | some _ => search
    | none =>
        { search with
          openlist := insertAfter State.weigh ⟨p1.x, p1.y, cost1, weigh⟩
            search.openlist
          pres := insertLink search.pres (p1, s.pos) }

/-- One round of the open-list loop.  It leaves with the predecessors when the
end is popped, and with nothing when the open list is empty. -/
def findBody (search : Search) : Search ⊕ Option (Pos → Option Pos) :=
  match search.openlist with
  | [] => .inr none
  | s :: openlist =>
      let search := { search with openlist }
      if s.pos = e then .inr (some search.pres)
      else if s.pos ∈ search.closelist then .inl search
      else
        .inl (DIRECT_COST.foldl (visit w heuristic e quick s)
          { search with closelist := s.pos :: search.closelist })

/-- The search before its first round. -/
def start (s : Pos) : Search where
  openlist := [⟨s.x, s.y, 0, heuristic s e⟩]
  closelist := []
  pres := fun _ => none

/-- `Astar::find` on fuel; the result is the vector `ret`. -/
def find (s : Pos) (fuel : Nat) : Option (List Pos) :=
  if w.isblock s || w.isblock e then some []
  else if s = e then some []
  else findPath (findBody w heuristic e quick) (start heuristic e s) e fuel

/-- `Astar::find` returns with `ret`. -/
def Finds (s : Pos) (ret : List Pos) : Prop :=
  ∃ fuel, find w heuristic e quick s fuel = some ret

end Find

end Astar

end LuaServer
