import LuaServer.SlgBlocks
import Mathlib.Data.List.Destutter

/-!
# Area queries of the strategy world

`areaids` moves the corners of a query into the map and collects the ids of the cells
between them.  The clamped rectangle has the same cells of the map as the query, as long
as the query meets the map: one that lies beside the map is moved onto its edge, and
finds the entities there.
-/

namespace LuaServer

namespace Slg

open MachineIntegers

namespace WorldGrid

/-- `World::correctpos`. -/
def correctpos (world : WorldGrid) (p : Pos) : Pos :=
  let p := if p.x < 0 then { p with x := 0 } else p
  let p := if p.x > world.len_ - 1 then { p with x := toInt16 (world.len_ - 1) } else p
  let p := if p.y < 0 then { p with y := 0 } else p
  if p.y > world.wid_ - 1 then { p with y := toInt16 (world.wid_ - 1) } else p

/-- `World::areaids`: what is left of the ids behind `sort` and `unique`. -/
def areaids (world : WorldGrid) (bl tr : Pos) : Option (List Int) := do
  let positions ← cells (world.correctpos bl) (world.correctpos tr)
  let ret := (positions.filterMap world.posEntity_).insertionSort (· ≤ ·)
  return ret.destutter (· ≠ ·)

/-- The world after some calls of `setentity`. -/
def setentities (world : WorldGrid) (calls : List (Int × Option Corners)) : Option WorldGrid :=
  world.run (calls.map fun call => .setentity call.1 call.2)

/-- A live entity has a cell of the map in the rectangle. -/
def HasCell (world : WorldGrid) (bl tr : Pos) (id : Int) : Prop :=
  ∃ entity, world.entity_ id = some entity ∧
    ∃ p, world.checkpos p = true ∧ inarea p entity.bl_ entity.tr_ ∧ inarea p bl tr

/-- The query returns the ids of the entities in its rectangle, sorted and once each. -/
def AreaExact (world : WorldGrid) (bl tr : Pos) : Prop :=
  ∃ ids, world.areaids bl tr = some ids ∧ (ids.Pairwise fun first second => first < second) ∧
    ∀ id, id ∈ ids ↔ world.HasCell bl tr id

/-- A rectangle has a cell of the map. -/
def MeetsMap (world : WorldGrid) (bl tr : Pos) : Prop :=
  ∃ p, world.checkpos p = true ∧ inarea p bl tr

/-- No live entity covers a cell of the rectangle. -/
def Uncovered (world : WorldGrid) (bl tr : Pos) : Prop :=
  ∀ p, inarea p bl tr → ∀ id entity, world.entity_ id = some entity →
    ¬ inarea p entity.bl_ entity.tr_

variable {world after start : WorldGrid}

section Queries

variable {bl tr p : Pos}

theorem correctpos_eq (size : world.len_ ≤ 32767 ∧ world.wid_ ≤ 32767)
    (built : 0 ≤ world.len_ ∧ 0 ≤ world.wid_) (p : Pos) :
    world.correctpos p =
      ⟨min (max p.x 0) (world.len_ - 1), min (max p.y 0) (world.wid_ - 1)⟩ := by
  have lastX := @toInt16_of_range (world.len_ - 1) (by omega) (by omega)
  have lastY := @toInt16_of_range (world.wid_ - 1) (by omega) (by omega)
  simp only [correctpos, lastX, lastY]
  ext
  · split_ifs <;> simp only at * <;> omega
  · split_ifs <;> simp only at * <;> omega

theorem int16Pos_correctpos (size : world.len_ ≤ 32767 ∧ world.wid_ ≤ 32767)
    (built : 0 ≤ world.len_ ∧ 0 ≤ world.wid_) (p : Pos) : Int16Pos (world.correctpos p) := by
  rw [correctpos_eq size built]
  exact ⟨⟨by simp only; omega, by simp only; omega⟩, ⟨by simp only; omega, by simp only; omega⟩⟩

/-- A query that meets the map keeps its cells of the map. -/
theorem inarea_correctpos (size : world.len_ ≤ 32767 ∧ world.wid_ ≤ 32767)
    (built : 0 ≤ world.len_ ∧ 0 ≤ world.wid_) (meets : world.MeetsMap bl tr)
    (inMap : world.checkpos p = true) :
    inarea p (world.correctpos bl) (world.correctpos tr) ↔ inarea p bl tr := by
  obtain ⟨other, otherInMap, otherInside⟩ := meets
  rw [checkpos_iff] at inMap otherInMap
  rw [inarea_iff] at otherInside
  rw [correctpos_eq size built, correctpos_eq size built, inarea_iff, inarea_iff]
  simp only
  omega

/-- A query ends, and returns the ids of the cells in the clamped rectangle. -/
theorem areaids_spec (size : world.len_ ≤ 32767 ∧ world.wid_ ≤ 32767)
    (built : 0 ≤ world.len_ ∧ 0 ≤ world.wid_) (bl tr : Pos) :
    ∃ ids, world.areaids bl tr = some ids ∧
      (ids.Pairwise fun first second => first < second) ∧
        ∀ id, id ∈ ids ↔ ∃ p, inarea p (world.correctpos bl) (world.correctpos tr) ∧
          world.posEntity_ p = some id := by
  have blRange := int16Pos_correctpos size built bl
  have trRange := int16Pos_correctpos size built tr
  have ends : ¬ Endless (world.correctpos bl) (world.correctpos tr) := by
    rw [Endless, correctpos_eq size built, correctpos_eq size built]
    simp only
    omega
  obtain ⟨positions, traversed⟩ := (exists_cells_iff blRange trRange).mpr ends
  let ret := (positions.filterMap world.posEntity_).insertionSort (· ≤ ·)
  have sorted : ret.Pairwise (· ≤ ·) := List.pairwise_insertionSort _ _
  have unique : ret.destutter (· ≠ ·) = ret.dedup := sorted.destutter_eq_dedup
  refine ⟨ret.dedup, by simp [areaids, traversed, ret, unique], ?_, fun id => ?_⟩
  · have stillSorted := sorted.sublist ret.dedup_sublist
    exact stillSorted.and ret.nodup_dedup |>.imp fun both => lt_of_le_of_ne both.1 both.2
  · rw [List.mem_dedup, List.mem_insertionSort, List.mem_filterMap]
    simp only [mem_cells blRange trRange traversed]

end Queries

/-- What is kept by the calls of `setentity`. -/
structure Covered (start world : WorldGrid) : Prop where
  grid : world.Matches
  len_ : world.len_ = start.len_
  wid_ : world.wid_ = start.wid_
  corners : ∀ id entity, world.entity_ id = some entity →
    Int16Pos entity.bl_ ∧ Int16Pos entity.tr_
  inside : ∀ id entity, world.entity_ id = some entity →
    ∀ p, inarea p entity.bl_ entity.tr_ → world.checkpos p = true

namespace Covered

variable {id : Int} {corners : Corners}

theorem checkpos_congr (len : after.len_ = world.len_) (wid : after.wid_ = world.wid_) (p : Pos) :
    after.checkpos p = world.checkpos p := by
  simp only [checkpos, len, wid]

theorem addentity (covered : Covered start world)
    (added : world.setentity id (some corners) = some after) : Covered start after := by
  simp only [setentity, WorldGrid.addentity] at added
  cases unused : world.entity_ id with
  | some entity =>
      simp only [unused] at added
      obtain rfl := Option.some.inj added
      exact covered
  | none =>
      simp only [unused, Option.bind_eq_bind, Option.pure_def, Option.bind_eq_some_iff] at added
      obtain ⟨blocked, searched, added⟩ := added
      cases blocked with
      | true =>
          obtain rfl := Option.some.inj added
          exact covered
      | false =>
          obtain ⟨positions, traversed, written⟩ := Option.bind_eq_some_iff.mp added
          obtain rfl := Option.some.inj written
          have free : ∀ p, inarea p corners.first corners.second → world.isblock p = false :=
            fun p => of_anyUp_anyUp_eq_false corners.int16.1 corners.int16.2 searched
          obtain ⟨-, len, wid, -⟩ := foldl_setCell
            (world.withEntity id (some ⟨corners.first, corners.second⟩)) positions (some id)
          refine ⟨covered.grid.addentity unused free fun p =>
            mem_cells corners.int16.1 corners.int16.2 traversed, len.trans covered.len_,
              wid.trans covered.wid_, fun other second isSecond => ?_,
              fun other second isSecond p inSecond => ?_⟩
          · rcases (entity_added other second).mp isSecond with ⟨-, rfl⟩ | ⟨-, old⟩
            · exact corners.int16
            · exact covered.corners other second old
          · rw [checkpos_congr len wid]
            rcases (entity_added other second).mp isSecond with ⟨-, rfl⟩ | ⟨-, old⟩
            · exact checkpos_of_free (free p inSecond)
            · exact covered.inside other second old p inSecond

theorem delentity (covered : Covered start world)
    (deleted : world.setentity id none = some after) : Covered start after := by
  simp only [setentity, WorldGrid.delentity] at deleted
  cases isEntity : world.entity_ id with
  | none =>
      simp only [isEntity] at deleted
      obtain rfl := Option.some.inj deleted
      exact covered
  | some entity =>
      simp only [isEntity, Option.bind_eq_bind, Option.pure_def, Option.bind_eq_some_iff] at deleted
      obtain ⟨positions, traversed, written⟩ := deleted
      obtain rfl := Option.some.inj written
      obtain ⟨blRange, trRange⟩ := covered.corners id entity isEntity
      obtain ⟨-, len, wid, -⟩ := foldl_setCell world positions none
      refine ⟨covered.grid.delentity isEntity (covered.inside id entity isEntity) fun p =>
        mem_cells blRange trRange traversed, len.trans covered.len_, wid.trans covered.wid_,
          fun other second isSecond => ?_, fun other second isSecond p inSecond => ?_⟩
      · exact covered.corners other second ((entity_deleted other second).mp isSecond).2
      · exact (checkpos_congr len wid p).trans
          (covered.inside other second ((entity_deleted other second).mp isSecond).2 p inSecond)

theorem setentity (covered : Covered start world) {corners : Option Corners}
    (done : world.setentity id corners = some after) : Covered start after := by
  cases corners with
  | none => exact covered.delentity done
  | some corners => exact covered.addentity done

theorem setentities (covered : Covered start world) {calls : List (Int × Option Corners)}
    (reached : world.setentities calls = some after) : Covered start after := by
  induction calls generalizing world with
  | nil =>
      obtain rfl := Option.some.inj reached
      exact covered
  | cons call calls ih =>
      rw [WorldGrid.setentities, List.map_cons, run, List.foldlM_cons] at reached
      obtain ⟨middle, stepped, rest⟩ := Option.bind_eq_some_iff.mp reached
      exact ih (covered.setentity stepped) rest

theorem create (len wid : Int) : Covered (create len wid) (create len wid) :=
  ⟨(kept_create len wid).grid, rfl, rfl, fun _ _ isEntity => (by cases isEntity),
    fun _ _ isEntity => (by cases isEntity)⟩

variable {bl tr : Pos}

/-- A query finds the entities with a cell in the clamped rectangle. -/
theorem areaExact_iff (covered : Covered start world)
    (size : world.len_ ≤ 32767 ∧ world.wid_ ≤ 32767)
    (built : 0 ≤ world.len_ ∧ 0 ≤ world.wid_) :
    world.AreaExact bl tr ↔ world.MeetsMap bl tr ∨
      world.Uncovered (world.correctpos bl) (world.correctpos tr) := by
  obtain ⟨ids, returned, sorted, members⟩ := areaids_spec size built bl tr
  simp only [covered.grid.index] at members
  constructor
  · rintro ⟨ids', returned', -, exact_⟩
    obtain rfl := Option.some.inj (returned.symm.trans returned')
    by_cases meets : world.MeetsMap bl tr
    · exact Or.inl meets
    · refine Or.inr fun p inClamped id entity isEntity inEntity => meets ?_
      obtain ⟨-, -, q, inMap, -, inQuery⟩ :=
        (exact_ id).mp ((members id).mpr ⟨p, inClamped, entity, isEntity, inEntity⟩)
      exact ⟨q, inMap, inQuery⟩
  · intro condition
    refine ⟨ids, returned, sorted, fun id => (members id).trans ?_⟩
    constructor
    · rintro ⟨p, inClamped, entity, isEntity, inEntity⟩
      have inMap := covered.inside id entity isEntity p inEntity
      rcases condition with meets | uncovered
      · exact ⟨entity, isEntity, p, inMap, inEntity,
          (inarea_correctpos size built meets inMap).mp inClamped⟩
      · exact absurd inEntity (uncovered p inClamped id entity isEntity)
    · rintro ⟨entity, isEntity, p, inMap, inEntity, inQuery⟩
      exact ⟨p, (inarea_correctpos size built ⟨p, inMap, inQuery⟩ inMap).mpr inQuery,
        entity, isEntity, inEntity⟩

end Covered

/-- In every world that calls of `setentity` lead to, a query returns the entities in its
rectangle exactly when it meets the map, or no entity lies where it is moved to. -/
theorem areaids_exact_iff (len wid : Int)
    (built : 0 ≤ (create len wid).len_ ∧ 0 ≤ (create len wid).wid_)
    (calls : List (Int × Option Corners)) {world : WorldGrid}
    (reached : (create len wid).setentities calls = some world) (bl tr : Pos) :
    world.AreaExact bl tr ↔ world.MeetsMap bl tr ∨
      world.Uncovered (world.correctpos bl) (world.correctpos tr) := by
  have covered := (Covered.create len wid).setentities reached
  have size := create_size len wid
  rw [← covered.len_, ← covered.wid_] at size built
  exact covered.areaExact_iff size built

/-- A query around the corner of an entity. -/
theorem areaids_exact_iff_corner : ∃ world,
    (create 10 10).setentities [(1, some (2, 2, 3, 3))] = some world ∧
      (world.AreaExact ⟨-4, -4⟩ ⟨2, 2⟩ ↔ world.MeetsMap ⟨-4, -4⟩ ⟨2, 2⟩ ∨
        world.Uncovered (world.correctpos ⟨-4, -4⟩) (world.correctpos ⟨2, 2⟩)) :=
  ⟨_, rfl, areaids_exact_iff 10 10 (by decide) [(1, some (2, 2, 3, 3))] rfl ⟨-4, -4⟩ ⟨2, 2⟩⟩

/-- A query beside the map finds an entity on the edge of the map. -/
theorem not_areaExact_beside : ∃ world,
    (create 10 10).setentities [(1, some (0, 0, 0, 0))] = some world ∧
      world.areaids ⟨-8, -8⟩ ⟨-5, -5⟩ = some [1] ∧ ¬ world.AreaExact ⟨-8, -8⟩ ⟨-5, -5⟩ := by
  refine ⟨_, rfl, by decide, ?_⟩
  rintro ⟨ids, returned, -, members⟩
  obtain rfl := Option.some.inj returned
  obtain ⟨entity, -, p, inMap, -, inQuery⟩ := (members 1).mp (by decide)
  have inside : 0 ≤ p.x := (checkpos_iff.mp inMap).1
  have beside : p.x ≤ -5 := (inarea_iff.mp inQuery).2.1
  omega

end WorldGrid

end Slg

end LuaServer
