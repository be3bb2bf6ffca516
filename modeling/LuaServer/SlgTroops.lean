import LuaServer.KeySortedLists
import LuaServer.SlgGeometry
import LuaServer.SortedDifferences
import Mathlib.Data.List.Sort

/-!
# Troops and views of the strategy world

Every view keeps the sorted list of the troops it saw at the last call of
`troopview`, and the call reports what has changed.  The hash tables are maps
sorted by their keys here: what a loop over one of them collects is sorted
afterwards.
-/

namespace LuaServer

namespace Slg

open MachineIntegers SortedDifferences

/-- A hash table with 64-bit ids as keys. -/
abbrev Table (Value : Type) := KeySorted (Prod.fst : Int × Value → Int)

structure Troop where
  n_ : Pos
  e_ : Pos
  deriving DecidableEq, Repr

structure View where
  bl_ : Pos
  tr_ : Pos
  troop_ : List Int
  deriving DecidableEq, Repr

/-- The tables of `struct World` that views depend on. -/
structure World where
  troop_ : Table Troop
  view_ : Table View

/-- A call of the callback of `troop_view`. -/
structure Delta where
  id : Int
  adds : List Int
  dels : List Int
  deriving DecidableEq, Repr

/-- The corners of a rectangle or the ends of a segment, as Lua passes them. -/
abbrev Corners := Int × Int × Int × Int

/-- The first and the second position of four numbers. -/
def Corners.first (corners : Corners) : Pos :=
  ⟨toInt16 corners.1, toInt16 corners.2.1⟩

def Corners.second (corners : Corners) : Pos :=
  ⟨toInt16 corners.2.2.1, toInt16 corners.2.2.2⟩

namespace World

def create : World :=
  ⟨KeySorted.empty _, KeySorted.empty _⟩

/-- `settroop` of `lworld.cc`. -/
def settroop (world : World) (id : Int) (corners : Option Corners) : World :=
  match corners with
  | none => { world with troop_ := world.troop_.drop id }
  | some corners => { world with troop_ := world.troop_.put (id, ⟨corners.first, corners.second⟩) }

/-- `setview` of `lworld.cc`. -/
def setview (world : World) (id : Int) (corners : Option Corners) : World :=
  match corners with
  | none => { world with view_ := world.view_.drop id }
  | some corners =>
      let troop_ :=
        match world.view_.find id with
        | none => []
        | some (_, view) => view.troop_
      { world with view_ := world.view_.put (id, ⟨corners.first, corners.second, troop_⟩) }

/-- The local `ntroop` of `troop_view` after sorting. -/
def ntroop (world : World) (view : View) : List Int :=
  ((world.troop_.elements.filter fun (_, troop) =>
    inview troop.n_ troop.e_ view.bl_ view.tr_).map Prod.fst).insertionSort (· ≤ ·)

/-- What `troop_view` tells the owner of a view. -/
def delta (world : World) (vid : Int) (view : View) : Delta :=
  ⟨vid, setDifference (world.ntroop view) view.troop_,
    setDifference view.troop_ (world.ntroop view)⟩

/-- `World::troop_view` with the calls of its callback. -/
def troopView (world : World) : World × List Delta :=
  ({ world with view_ := world.view_.mapValues fun _ view =>
      { view with troop_ := world.ntroop view } },
    (world.view_.elements.map fun (vid, view) => world.delta vid view).filter fun delta =>
      ¬(delta.adds.isEmpty ∧ delta.dels.isEmpty))

end World

end Slg

end LuaServer
