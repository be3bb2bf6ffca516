import LuaServer.AstarSearch
import LuaServer.CellIndexes
import Mathlib.Data.Rat.Floor

/-!
# The interest grid of the skill world

Actors stand on positions that are clamped to the map, and the grid has a cell
for every square of `AOILEN` by `AOILEN`.  When an actor moves it is told which
actors come into the nine cells around it and which ones leave them.
Coordinates are rational numbers here.
-/

namespace LuaServer

namespace SkillWorld

open GridCell MachineIntegers

def AOILEN : Int := 10
def AOIMAX : Nat := 200

/-- The fields of `struct Actor` that the world reads. -/
structure Actor where
  id_ : Int
  x_ : ℚ
  y_ : ℚ
  dx_ : Int
  dy_ : Int
  camp_ : Int

/-- A floating point number assigned to an `int16_t`, rounded towards zero. -/
def truncate (value : ℚ) : Int :=
  toInt16 (if 0 ≤ value then ⌊value⌋ else ⌈value⌉)

/-- What the loops of `Aoi::Aoi` push. -/
def directions : List Pos :=
  [⟨-1, -1⟩, ⟨-1, 0⟩, ⟨-1, 1⟩, ⟨0, -1⟩, ⟨0, 0⟩, ⟨0, 1⟩, ⟨1, -1⟩, ⟨1, 0⟩, ⟨1, 1⟩]

/-- `dirs_` behind `sort`, which may leave directions of one length in any order. -/
structure Dirs where
  elements : List Pos
  perm : elements.Perm directions
  sorted : elements.Pairwise fun lhs rhs =>
    lhs.x * lhs.x + lhs.y * lhs.y ≤ rhs.x * rhs.x + rhs.y * rhs.y

/-- `struct Aoi`. -/
structure Aoi where
  aoi_ : CellIndex Int Pos
  dirs_ : Dirs

namespace Aoi

/-- The local variable `g` of `Aoi::add` and `Aoi::del`. -/
def gridOf (actor : Actor) : Pos :=
  ⟨truncate (actor.x_ / AOILEN), truncate (actor.y_ / AOILEN)⟩

/-- `Aoi::add`. -/
def add (aoi : Aoi) (id : Int) (actor : Actor) : Aoi :=
  { aoi with aoi_ := aoi.aoi_.insertAt (gridOf actor) id }

/-- `Aoi::del`. -/
def del (aoi : Aoi) (id : Int) (actor : Actor) : Aoi :=
  { aoi with aoi_ := aoi.aoi_.eraseAt (gridOf actor) id }

/-- The cells `Aoi::traversal_area` calls back with. -/
def traversalArea (aoi : Aoi) (p : Pos) : List Pos :=
  (aoi.dirs_.elements.map fun d =>
    ⟨toInt16 (p.x.tdiv AOILEN + d.x), toInt16 (p.y.tdiv AOILEN + d.y)⟩).filter
      fun ng => (aoi.aoi_ ng).isSome

/-- The local function `coincide` of `Aoi::diff`. -/
def coincide (g : Pos) (gx gy : Int) : Bool :=
  if g.x < gx - 1 then false
  else if g.x > gx + 1 then false
  else if g.y < gy - 1 then false
  else if g.y > gy + 1 then false
  else true

/-- The loop of a callback over the ids of a cell, which ends when `max` are taken. -/
def collect (max : Nat) (keep : Int → Bool) : List Int → List Int → List Int
  | taken, [] => taken
  | taken, id :: ids =>
      if taken.length ≥ max then taken
      else collect max keep (if keep id then taken ++ [id] else taken) ids

/-- `Aoi::diff`.  The ids of a cell come in the order in which its table lists
them. -/
def diff (aoi : Aoi) (aid : Int) (bp np : Pos) (listed : Pos → List Int) :
    List Int × List Int :=
  let bgx := toInt16 (bp.x.tdiv AOILEN)
  let bgy := toInt16 (bp.y.tdiv AOILEN)
  let ngx := toInt16 (np.x.tdiv AOILEN)
  let ngy := toInt16 (np.y.tdiv AOILEN)
  let adds := (aoi.traversalArea np).foldl (fun adds g =>
    if coincide g bgx bgy then adds
    else collect AOIMAX (fun id => id ≠ aid) adds (listed g)) []
  let dels := (aoi.traversalArea bp).foldl (fun dels g =>
    if coincide g ngx ngy then dels
    else collect (AOIMAX * 2) (fun _ => true) dels (listed g)) []
  (adds, dels)

end Aoi

/-- The map of `World` with its actors and the grid. -/
structure ActorWorld extends World where
  actor_ : Int → Option Actor
  aoi_ : Aoi

namespace ActorWorld

/-- `World::World`. -/
def create (len wid : Int) (lenInt16 : -32768 ≤ len ∧ len ≤ 32767)
    (widInt16 : -32768 ≤ wid ∧ wid ≤ 32767) (dirs : Dirs) : ActorWorld :=
  { len, wid, lenInt16, widInt16
    block := fun _ => none
    actor_ := fun _ => none
    aoi_ := ⟨fun _ => none, dirs⟩ }

/-- `World::correctpos`. -/
def correctpos (world : ActorWorld) (actor : Actor) : Actor :=
  let actor := if actor.x_ < 0 then { actor with x_ := 0 } else actor
  let actor := if actor.x_ > world.len - 1 then { actor with x_ := world.len - 1 } else actor
  let actor := if actor.y_ < 0 then { actor with y_ := 0 } else actor
  if actor.y_ > world.wid - 1 then { actor with y_ := world.wid - 1 } else actor

/-- `World::addactor`. -/
def addactor (world : ActorWorld) (id : Int) (actor : Actor) : ActorWorld :=
  match world.actor_ id with
  | some _ => world
  | none =>
      let actor := world.correctpos actor
      { world with
        actor_ := Function.update world.actor_ id (some actor)
        aoi_ := world.aoi_.add id actor }

/-- `World::delactor`. -/
def delactor (world : ActorWorld) (id : Int) : ActorWorld :=
  match world.actor_ id with
  | none => world
  | some actor =>
      { world with
        actor_ := Function.update world.actor_ id none
        aoi_ := world.aoi_.del id actor }

/-- The actor behind `World::setpos`. -/
def moved (world : ActorWorld) (actor : Actor) (fx fy : ℚ) (dx dy : Int) : Actor :=
  world.correctpos { actor with x_ := fx, y_ := fy, dx_ := dx, dy_ := dy }

/-- `World::setpos` up to the call of `Aoi::diff`. -/
def setpos (world : ActorWorld) (id : Int) (fx fy : ℚ) (dx dy : Int) : ActorWorld :=
  match world.actor_ id with
  | none => world
  | some actor =>
      let next := world.moved actor fx fy dx dy
      { world with
        actor_ := Function.update world.actor_ id (some next)
        aoi_ := (world.aoi_.del id actor).add id next }

/-- The local variables `bp` and `np` of `World::setpos`. -/
def positionOf (actor : Actor) : Pos :=
  ⟨truncate actor.x_, truncate actor.y_⟩

/-- What `World::setpos` leaves in `adds` and `dels`. -/
def setposDiff (world : ActorWorld) (id : Int) (fx fy : ℚ) (dx dy : Int)
    (listed : Pos → List Int) : List Int × List Int :=
  match world.actor_ id with
  | none => ([], [])
  | some actor =>
      (world.setpos id fx fy dx dy).aoi_.diff id (positionOf actor)
        (positionOf (world.moved actor fx fy dx dy)) listed

end ActorWorld

/-- A call of the world. -/
inductive Event where
  | addactor (id : Int) (actor : Actor)
  | delactor (id : Int)
  | setpos (id : Int) (fx fy : ℚ) (dx dy : Int)

namespace ActorWorld

def step (world : ActorWorld) : Event → ActorWorld
  | .addactor id actor => world.addactor id actor
  | .delactor id => world.delactor id
  | .setpos id fx fy dx dy => world.setpos id fx fy dx dy

def run (world : ActorWorld) (events : List Event) : ActorWorld :=
  events.foldl step world

end ActorWorld

end SkillWorld

end LuaServer
