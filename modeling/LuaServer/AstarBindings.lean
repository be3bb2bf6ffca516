import LuaServer.AstarCorrectness
import LuaServer.MapInstances

/-!
# Two bindings of the A* search

The map of `mmo` and the world of `mmoccskill` search with the same code over different
stores of their obstacles, and the same calls place the same obstacles in both.  The
vectors they find are therefore equal.  One binding passes its vector on as it is, from
the end to the start, and the other one reverses it.
-/

namespace LuaServer

open GridCell MachineIntegers PredecessorLinks OrderedMultisets FueledLoops

-- `Astar` of `mmo`, which asks a `Map` for its obstacles.
namespace MapAstar

open Astar (State Search Dircost DIRECT_COST)

section Find

variable (map_ : SkillMap.Core) (heuristic : Pos → Pos → Int) (e : Pos) (quick : Bool)

/-- The body of the loop over `DIRECT_COST`. -/
def visit (s : State) (search : Search) (d : Dircost) : Search :=
  let p1 := d.target s.pos
  let cost1 := toInt32 (s.cost + d.cost)
  if map_.impassable p1 then search
  else if p1 ∈ search.closelist then search
  else
    let weigh :=
      if p1 = e then 0
      else if quick then heuristic p1 e
      else toInt32 (cost1 + heuristic p1 e)
    match search.pres p1 with
    | some _ => search
    | none =>
        { search with
          openlist := insertAfter State.weigh ⟨p1.x, p1.y, cost1, weigh⟩ search.openlist
          pres := insertLink search.pres (p1, s.pos) }

/-- One round of the open-list loop. -/
def findBody (search : Search) : Search ⊕ Option (Pos → Option Pos) :=
  match search.openlist with
  | [] => .inr none
  | s :: openlist =>
      let search := { search with openlist }
      if s.pos = e then .inr (some search.pres)
      else if s.pos ∈ search.closelist then .inl search
      else
        .inl (DIRECT_COST.foldl (visit map_ heuristic e quick s)
          { search with closelist := s.pos :: search.closelist })

/-- `Astar::find` on fuel; the result is the vector `ret`. -/
def find (s : Pos) (fuel : Nat) : Option (List Pos) :=
  if map_.impassable s || map_.impassable e then some []
  else if s = e then some []
  else findPath (findBody map_ heuristic e quick) (Astar.start heuristic e s) e fuel

end Find

end MapAstar

/-- The coordinates of some positions, one after another. -/
def coordinates (ps : List Pos) : List Int :=
  ps.flatMap fun p => [p.x, p.y]

/-- `astar` of `lmap.cc` on fuel, with the table it returns, if there is one. -/
def Lmap.astar (map_ : SkillMap.Core) (heuristic : Pos → Pos → Int) (sx sy ex ey : Int)
    (quick : Bool) (fuel : Nat) : Option (Option (List Int)) := do
  let ret ← MapAstar.find map_ heuristic ⟨toInt16 ex, toInt16 ey⟩ quick
    ⟨toInt16 sx, toInt16 sy⟩ fuel
  return if ret.isEmpty then none else some (coordinates ret)

/-- `Lworld::astar` on fuel, with the table it returns, if there is one. -/
def Lworld.astar (world : World) (heuristic : Pos → Pos → Int) (sx sy ex ey : Int)
    (quick : Bool) (fuel : Nat) : Option (Option (List Int)) := do
  let ret ← Astar.find world heuristic ⟨toInt16 ex, toInt16 ey⟩ quick
    ⟨toInt16 sx, toInt16 sy⟩ fuel
  return if ret.isEmpty then none else some (coordinates ret.reverse)

/-- A call that sets or clears an obstacle in both. -/
structure Placing where
  x : Int
  y : Int
  v : Int

/-- `add_obstacle` or `del_obstacle` of `lmap.cc`. -/
def Placing.onMap (map_ : SkillMap.Core) (placing : Placing) : SkillMap.Core :=
  if toInt8 placing.v = 0 then map_.delObstacle ⟨toInt16 placing.x, toInt16 placing.y⟩
  else map_.addObstacle ⟨toInt16 placing.x, toInt16 placing.y⟩

/-- `Lworld::setblock`. -/
def Placing.onWorld (world : World) (placing : Placing) : World :=
  world.setblock ⟨toInt16 placing.x, toInt16 placing.y⟩ (toInt8 placing.v)

/-- The map of some calls. -/
def placedMap (len wid : Int) (order : SkillMap.SearchOrder) (placings : List Placing) :
    SkillMap.Core :=
  placings.foldl Placing.onMap (SkillMap.Core.create len wid order)

theorem toInt16_bounds (value : Int) : -32768 ≤ toInt16 value ∧ toInt16 value ≤ 32767 := by
  have range := toInt16_range value
  omega

/-- The world of some calls. -/
def placedWorld (len wid : Int) (placings : List Placing) : World :=
  placings.foldl Placing.onWorld
    ⟨toInt16 len, toInt16 wid, fun _ => none, toInt16_bounds len, toInt16_bounds wid⟩

/-- Both bindings return the same. -/
def SamePath (map_ : SkillMap.Core) (world : World) (heuristic : Pos → Pos → Int)
    (sx sy ex ey : Int) (quick : Bool) : Prop :=
  ∃ fuel result, Lmap.astar map_ heuristic sx sy ex ey quick fuel = some result ∧
    Lworld.astar world heuristic sx sy ex ey quick fuel = some result

/-- There is nothing to find. -/
def Pathless (world : World) (s e : Pos) : Prop :=
  world.isblock s = true ∨ world.isblock e = true ∨ s = e ∨ ¬ Astar.Reachable world s e

section Obstacles

variable {map_ : SkillMap.Core} {world : World}

/-- The two have one size and the same obstacles in it. -/
structure SameObstacles (map_ : SkillMap.Core) (world : World) : Prop where
  len : map_.len_ = world.len
  wid : map_.wid_ = world.wid
  blocked : ∀ p, world.inarea p = true → (p ∈ map_.obstacle_ ↔ (world.block p).isSome)

namespace SameObstacles

theorem inArea_eq (same : SameObstacles map_ world) (p : Pos) :
    map_.inArea p = world.inarea p := by
  simp only [SkillMap.Core.inArea, World.inarea, same.len, same.wid, Bool.or_eq_true,
    decide_eq_true_eq]
  by_cases left : p.x < 0
  · simp [left]
  by_cases right : p.x > world.len - 1
  · simp [right]
  by_cases low : p.y < 0
  · simp [left, right, low]
  · simp [left, right, low]

theorem impassable_eq (same : SameObstacles map_ world) :
    map_.impassable = world.isblock := by
  funext p
  simp only [SkillMap.Core.impassable, World.isblock, same.inArea_eq]
  cases inside : world.inarea p with
  | false => rfl
  | true => simp [same.blocked p inside]

theorem place (same : SameObstacles map_ world) (placing : Placing) :
    SameObstacles (placing.onMap map_) (placing.onWorld world) := by
  obtain ⟨x, y, v⟩ := placing
  have areas := same.inArea_eq ⟨toInt16 x, toInt16 y⟩
  by_cases inside : world.inarea ⟨toInt16 x, toInt16 y⟩ = true
  · rw [inside] at areas
    by_cases clears : toInt8 v = 0
    · have onMap : Placing.onMap map_ ⟨x, y, v⟩ = map_.delObstacle ⟨toInt16 x, toInt16 y⟩ :=
        if_pos clears
      have onWorld : Placing.onWorld world ⟨x, y, v⟩ =
          { world with block := Function.update world.block ⟨toInt16 x, toInt16 y⟩ none } := by
        simp [Placing.onWorld, World.setblock, inside, clears]
      rw [onMap, onWorld]
      refine ⟨same.len, same.wid, fun p isInside => ?_⟩
      by_cases here : p = ⟨toInt16 x, toInt16 y⟩
      · subst here
        simp [SkillMap.Core.delObstacle]
      · simpa [SkillMap.Core.delObstacle, here] using same.blocked p isInside
    · have onMap : Placing.onMap map_ ⟨x, y, v⟩ =
          { map_ with obstacle_ := insert ⟨toInt16 x, toInt16 y⟩ map_.obstacle_ } := by
        simp [Placing.onMap, SkillMap.Core.addObstacle, areas, clears]
      have onWorld : Placing.onWorld world ⟨x, y, v⟩ =
          { world with
            block := Function.update world.block ⟨toInt16 x, toInt16 y⟩ (some (toInt8 v)) } := by
        simp [Placing.onWorld, World.setblock, inside, clears]
      rw [onMap, onWorld]
      refine ⟨same.len, same.wid, fun p isInside => ?_⟩
      by_cases here : p = ⟨toInt16 x, toInt16 y⟩
      · subst here
        simp
      · simpa [here] using same.blocked p isInside
  · -- Outside of the map, clearing erases nothing that counts.
    have outside := Bool.eq_false_iff.mpr inside
    have onWorld : Placing.onWorld world ⟨x, y, v⟩ = world := by
      simp [Placing.onWorld, World.setblock, outside]
    rw [onWorld]
    rw [outside] at areas
    by_cases clears : toInt8 v = 0
    · have onMap : Placing.onMap map_ ⟨x, y, v⟩ = map_.delObstacle ⟨toInt16 x, toInt16 y⟩ :=
        if_pos clears
      rw [onMap]
      refine ⟨same.len, same.wid, fun p isInside => ?_⟩
      have elsewhere : p ≠ ⟨toInt16 x, toInt16 y⟩ := by
        rintro rfl
        exact inside isInside
      simpa [SkillMap.Core.delObstacle, elsewhere] using same.blocked p isInside
    · have onMap : Placing.onMap map_ ⟨x, y, v⟩ = map_ := by
        simp [Placing.onMap, SkillMap.Core.addObstacle, areas, clears]
      rw [onMap]
      exact same

end SameObstacles

theorem sameObstacles_placed (len wid : Int) (order : SkillMap.SearchOrder)
    (placings : List Placing) :
    SameObstacles (placedMap len wid order placings) (placedWorld len wid placings) := by
  induction placings using List.reverseRecOn with
  | nil => exact ⟨rfl, rfl, fun p _ => iff_of_false (Finset.notMem_empty p) Bool.false_ne_true⟩
  | append_singleton placings last ih =>
      rw [placedMap, placedWorld, List.foldl_concat, List.foldl_concat]
      exact ih.place last

end Obstacles

section Searches

variable {map_ : SkillMap.Core} {world : World} {heuristic : Pos → Pos → Int} {s e : Pos}
  {quick : Bool}

/-- Over the same obstacles, the two searches do the same in every round. -/
theorem find_eq (same : SameObstacles map_ world) (fuel : Nat) :
    MapAstar.find map_ heuristic e quick s fuel = Astar.find world heuristic e quick s fuel := by
  have visits : MapAstar.visit map_ heuristic e quick = Astar.visit world heuristic e quick := by
    funext popped search d
    cases present : search.pres (d.target popped.pos) <;>
      simp only [MapAstar.visit, Astar.visit, same.impassable_eq, present]
  have rounds : MapAstar.findBody map_ heuristic e quick =
      Astar.findBody world heuristic e quick := by
    funext search
    cases opened : search.openlist <;>
      simp only [MapAstar.findBody, Astar.findBody, visits, opened]
  simp only [MapAstar.find, Astar.find, rounds, same.impassable_eq]

theorem coordinates_ne_reverse {ret : List Pos} (head : ret.head? = some e)
    (last : ret.getLast? = some s) (differ : s ≠ e) :
    coordinates ret ≠ coordinates ret.reverse := by
  intro equal
  have isReverse : ret.reverse.head? = some s := by rw [List.head?_reverse, last]
  obtain ⟨front, isFront⟩ := List.head?_eq_some_iff.mp head
  obtain ⟨back, isBack⟩ := List.head?_eq_some_iff.mp isReverse
  rw [isBack, isFront] at equal
  simp only [coordinates, List.flatMap_cons, List.cons_append, List.cons.injEq] at equal
  obtain ⟨sameX, sameY, -⟩ := equal
  apply differ
  obtain ⟨x, y⟩ := s
  obtain ⟨x', y'⟩ := e
  simp only at sameX sameY
  rw [sameX, sameY]

end Searches

section Bindings

variable {map_ : SkillMap.Core} {world : World} {heuristic : Pos → Pos → Int}
  {sx sy ex ey : Int} {quick : Bool}

theorem samePath_of_pathless (same : SameObstacles map_ world)
    (pathless : Pathless world ⟨toInt16 sx, toInt16 sy⟩ ⟨toInt16 ex, toInt16 ey⟩) :
    SamePath map_ world heuristic sx sy ex ey quick := by
  obtain ⟨ret, ⟨fuel, found⟩, -, isEmpty, -⟩ := Astar.find_correct world heuristic
    ⟨toInt16 sx, toInt16 sy⟩ ⟨toInt16 ex, toInt16 ey⟩ quick
  have nothing : ret = [] := by
    apply isEmpty.mpr
    rcases pathless with startBlocked | endBlocked | equal | unreachable
    · exact Or.inr (Or.inl startBlocked)
    · exact Or.inr (Or.inr (Or.inl endBlocked))
    · exact Or.inl equal
    · exact Or.inr (Or.inr (Or.inr unreachable))
  subst nothing
  refine ⟨fuel, none, ?_, ?_⟩
  · rw [Lmap.astar, find_eq same, found]
    rfl
  · rw [Lworld.astar, found]
    rfl

theorem pathless_of_samePath (same : SameObstacles map_ world)
    (equal : SamePath map_ world heuristic sx sy ex ey quick) :
    Pathless world ⟨toInt16 sx, toInt16 sy⟩ ⟨toInt16 ex, toInt16 ey⟩ := by
  obtain ⟨ret, -, unique, isEmpty, path⟩ := Astar.find_correct world heuristic
    ⟨toInt16 sx, toInt16 sy⟩ ⟨toInt16 ex, toInt16 ey⟩ quick
  obtain ⟨fuel, result, onMap, onWorld⟩ := equal
  by_contra notPathless
  simp only [Pathless, not_or] at notPathless
  obtain ⟨startFree, endFree, differ, reachable⟩ := notPathless
  have something : ret ≠ [] := by
    intro nothing
    rcases isEmpty.mp nothing with equal | startBlocked | endBlocked | unreachable
    · exact differ equal
    · exact startFree startBlocked
    · exact endFree endBlocked
    · exact reachable unreachable
  obtain ⟨head, last, -⟩ := path something
  rw [Lmap.astar, find_eq same] at onMap
  rw [Lworld.astar] at onWorld
  cases found : Astar.find world heuristic ⟨toInt16 ex, toInt16 ey⟩ quick
      ⟨toInt16 sx, toInt16 sy⟩ fuel with
  | none =>
      rw [found] at onMap
      cases onMap
  | some other =>
      obtain rfl := unique other ⟨fuel, found⟩
      have notEmpty : ¬ other.isEmpty = true := fun nothing =>
        something (List.isEmpty_iff.mp nothing)
      simp only [found, Option.bind_eq_bind, Option.bind_some, Option.pure_def, if_neg notEmpty,
        Option.some.injEq] at onMap onWorld
      exact coordinates_ne_reverse head last differ
        (Option.some.inj (onMap.trans onWorld.symm))

/-- Over the same obstacles, the two bindings return the same exactly when there is
nothing to find. -/
theorem samePath_iff (len wid : Int) (order : SkillMap.SearchOrder) (placings : List Placing)
    (heuristic : Pos → Pos → Int) (sx sy ex ey : Int) (quick : Bool) :
    SamePath (placedMap len wid order placings) (placedWorld len wid placings) heuristic
        sx sy ex ey quick ↔
      Pathless (placedWorld len wid placings) ⟨toInt16 sx, toInt16 sy⟩
        ⟨toInt16 ex, toInt16 ey⟩ :=
  ⟨pathless_of_samePath (sameObstacles_placed len wid order placings),
    samePath_of_pathless (sameObstacles_placed len wid order placings)⟩

/-- One step over a map without obstacles. -/
theorem not_samePath_step :
    ¬ SamePath (placedMap 3 3 default []) (placedWorld 3 3 []) Astar.cost 0 0 1 0 false := by
  intro equal
  have pathless := pathless_of_samePath (sameObstacles_placed 3 3 default []) equal
  rcases pathless with startBlocked | endBlocked | same | unreachable
  · exact absurd startBlocked (by decide)
  · exact absurd endBlocked (by decide)
  · exact absurd same (by decide)
  · apply unreachable
    have move : Astar.Move (placedWorld 3 3 []) ⟨0, 0⟩ ⟨1, 0⟩ :=
      ⟨by decide, by decide, ⟨1, 0⟩, by decide, by decide, rfl⟩
    exact Relation.ReflTransGen.single move

end Bindings

end LuaServer
