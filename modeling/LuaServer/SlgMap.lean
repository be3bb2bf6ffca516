import LuaServer.SlgTroops
import Mathlib.Logic.Function.Basic

/-!
# The strategy map

The new map keeps its entities in two tables, from ids to rectangles and from
cells to ids.  A vision keeps the sorted list of the marches it saw last, and
is found through the cell in its center.  Loops over a rectangle count with
16-bit integers, so a loop up to the largest of them does not end by itself.
-/

namespace LuaServer

namespace Slg

open MachineIntegers SortedDifferences

/-- The values of `v` in `for (int16_t v = v; v <= last; ++v)`, and nothing when
the loop does not end within the rounds. -/
def countUp : Nat → Int → Int → Option (List Int)
  | 0, _, _ => none
  | rounds + 1, v, last =>
      if v ≤ last then (countUp rounds (toInt16 (v + 1)) last).map (v :: ·) else some []

/-- A 16-bit counter that has not stopped after so many rounds never does. -/
def int16Rounds : Nat := 65537

/-- The positions of a loop over a rectangle, column by column. -/
def cells (bl tr : Pos) : Option (List Pos) := do
  let xs ← countUp int16Rounds bl.x tr.x
  let rows ← xs.mapM fun x => do
    let ys ← countUp int16Rounds bl.y tr.y
    return ys.map fun y => ⟨x, y⟩
  return rows.flatten

/-- A counting loop that returns `true` from its first round that does. -/
def anyUp (test : Int → Option Bool) : Nat → Int → Int → Option Bool
  | 0, _, _ => none
  | rounds + 1, v, last =>
      if v ≤ last then
        match test v with
        | none => none
        | some true => some true
        | some false => anyUp test rounds (toInt16 (v + 1)) last
      else some false

structure Entity where
  id_ : Int
  bl_ : Pos
  tr_ : Pos
  deriving DecidableEq, Repr

structure March where
  id_ : Int
  cur_ : Pos
  end_ : Pos
  deriving DecidableEq, Repr

structure Vision where
  id_ : Int
  bl_ : Pos
  tr_ : Pos
  march_ : List Int
  deriving DecidableEq, Repr

/-- `Vision::center`. -/
def Vision.center (vision : Vision) : Pos :=
  ⟨toInt16 ((vision.bl_.x + vision.tr_.x).tdiv 2), toInt16 ((vision.bl_.y + vision.tr_.y).tdiv 2)⟩

/-- A hash set of 64-bit ids. -/
abbrev IdSet := KeySorted (id : Int → Int)

/-- `struct Map`. -/
structure Map where
  len_ : Int
  wid_ : Int
  entity_ : Table Entity
  posEid_ : Pos → Option Int
  march_ : Table March
  vision_ : Table Vision
  posVids_ : Pos → Option IdSet

namespace Map

def OBSTACLE_ID : Int := -9999999

/-- `Map::Map`. -/
def create (len wid : Int) : Map :=
  ⟨len, wid, KeySorted.empty _, fun _ => none, KeySorted.empty _, KeySorted.empty _, fun _ => none⟩

/-- `Map::check_pos`. -/
def checkPos (map : Map) (p : Pos) : Bool :=
  if p.x < 0 then false
  else if p.x ≥ map.len_ then false
  else if p.y < 0 then false
  else if p.y ≥ map.wid_ then false
  else true

/-- `Map::obstacle`. -/
def obstacle (map : Map) (p : Pos) : Bool :=
  if !map.checkPos p then true else (map.posEid_ p).isSome

section Entities

/-- `Map::area_obstacle`. -/
def areaObstacle (map : Map) (bl tr : Pos) : Option Bool :=
  anyUp (fun x => anyUp (fun y => some (map.obstacle ⟨x, y⟩)) int16Rounds bl.y tr.y)
    int16Rounds bl.x tr.x

/-- `Map::traversal_area`: the positions its callback is called for. -/
def traversalArea (map : Map) (bl tr : Pos) : Option (List Pos) := do
  let xs ← countUp int16Rounds bl.x tr.x
  let rows ← xs.mapM fun x => do
    let ys ← countUp int16Rounds bl.y tr.y
    return ys.map fun y => ⟨x, y⟩
  return rows.flatten.filter fun p => map.checkPos p

/-- `pos_eid_[p] = eid` for all positions. -/
def setEids (map : Map) (cells : List Pos) (eid : Option Int) : Map :=
  cells.foldl (fun map p => { map with posEid_ := Function.update map.posEid_ p eid }) map

/-- `Map::add_obstalce`. -/
def addObstalce (map : Map) (bl tr : Pos) : Option Map := do
  let cells ← map.traversalArea bl tr
  return map.setEids cells (some OBSTACLE_ID)

/-- `Map::del_obstacle`. -/
def delObstacle (map : Map) (bl tr : Pos) : Option Map := do
  let cells ← map.traversalArea bl tr
  return map.setEids cells none

/-- `Map::add_entity`. -/
def addEntity (map : Map) (entity : Entity) : Option Map := do
  let eid := entity.id_
  let map := { map with entity_ := map.entity_.put (eid, entity) }
  let cells ← map.traversalArea entity.bl_ entity.tr_
  return map.setEids cells (some eid)

/-- `Map::del_entity`. -/
def delEntity (map : Map) (id : Int) : Option Map :=
  match map.entity_.find id with
  | none => some map
  | some (_, entity) => do
      let cells ← map.traversalArea entity.bl_ entity.tr_
      let map := map.setEids cells none
      return { map with entity_ := map.entity_.drop id }

/-- `Map::area_eid`, whose ids come in the order of a hash set. -/
def areaEid (map : Map) (bl tr : Pos) : Option IdSet := do
  let cells ← map.traversalArea bl tr
  return cells.foldl (fun set_ p =>
    match map.posEid_ p with
    | none => set_
    | some id => if id = OBSTACLE_ID then set_ else set_.put id) (KeySorted.empty _)

end Entities

section Visions

/-- `Map::add_march`. -/
def addMarch (map : Map) (march : March) : Map :=
  { map with march_ := map.march_.put (march.id_, march) }

/-- `Map::del_march`. -/
def delMarch (map : Map) (id : Int) : Map :=
  { map with march_ := map.march_.drop id }

/-- `Map::clear_march`. -/
def clearMarch (map : Map) : Map :=
  { map with march_ := KeySorted.empty _ }

/-- `Map::del_vision`. -/
def delVision (map : Map) (id : Int) : Map :=
  match map.vision_.find id with
  | none => map
  | some (_, v) =>
      let c := v.center
      let posVids_ :=
        match map.posVids_ c with
        | none => map.posVids_
        | some set_ =>
            let set_ := set_.drop id
            if set_.elements.isEmpty then Function.update map.posVids_ c none
            else Function.update map.posVids_ c (some set_)
      { map with posVids_, vision_ := map.vision_.drop id }

/-- `Map::set_vision`. -/
def setVision (map : Map) (vision : Vision) : Map :=
  let vid := vision.id_
  let (map, vision) :=
    match map.vision_.find vid with
    | none => (map, vision)
    | some (_, old) => (map.delVision vid, { vision with march_ := old.march_ })
  let c := vision.center
  let set_ := (map.posVids_ c).getD (KeySorted.empty _)
  { map with
    vision_ := map.vision_.put (vid, vision)
    posVids_ := Function.update map.posVids_ c (some (set_.put vid)) }

/-- `Map::vision_march`. -/
def visionMarch (map : Map) (vid : Int) : List Int :=
  match map.vision_.find vid with
  | none => []
  | some (_, v) =>
      (map.march_.elements.filter fun (_, march) =>
        inview march.cur_ march.end_ v.bl_ v.tr_).map Prod.fst

/-- `Map::vision_diff`, with the `adds` and the `dels` it finds. -/
def visionDiff (map : Map) (vid : Int) : Map × Delta :=
  match map.vision_.find vid with
  | none => (map, ⟨vid, [], []⟩)
  | some (_, vis) =>
      let new_ := (map.visionMarch vid).insertionSort (· ≤ ·)
      ({ map with vision_ := map.vision_.put (vid, { vis with march_ := new_ }) },
        ⟨vid, setDifference new_ vis.march_, setDifference vis.march_ new_⟩)

end Visions

end Map

/-- `set_vision` of `lmap.cc`. -/
def Lmap.setVision (map : Map) (id : Int) (corners : Corners) : Map :=
  map.setVision ⟨id, corners.first, corners.second, []⟩

/-- `add_march` of `lmap.cc`. -/
def Lmap.addMarch (map : Map) (id : Int) (corners : Corners) : Map :=
  map.addMarch ⟨id, corners.first, corners.second⟩

end Slg

end LuaServer
