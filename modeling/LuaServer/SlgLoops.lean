import LuaServer.SlgBlocks

/-!
# The loops over a rectangle

A loop up to the largest 16-bit integer has no end of its own, because its counter wraps
around before it can pass its bound.  The traversals end exactly when they reach no such
bound.  A search is stopped by the border of the map, which counts as an obstacle, unless
its inner loop is empty.
-/

namespace LuaServer

namespace Slg

open MachineIntegers

/-- `Map::area_vid`, whose ids come in the order of the hash sets. -/
def Map.areaVid (map : Map) (bl tr : Pos) : Option (List Int) := do
  let positions ← cells bl tr
  return positions.flatMap fun c =>
    match map.posVids_ c with
    | none => []
    | some set_ => set_.elements

/-- The searches over a rectangle that do not end. -/
def EndlessSearch (bl tr : Pos) : Prop :=
  tr.x = 32767 ∧ tr.y < bl.y

/-- All loops over a rectangle end, and the traversal calls its callback once for each
cell of the map in it, and for no others. -/
structure Map.LoopsEnd (map : Map) (bl tr : Pos) : Prop where
  traversalArea : ∃ positions, map.traversalArea bl tr = some positions ∧ positions.Nodup ∧
    ∀ p, p ∈ positions ↔ map.checkPos p ∧ inarea p bl tr
  addObstalce : ∃ after, map.addObstalce bl tr = some after
  delObstacle : ∃ after, map.delObstacle bl tr = some after
  addEntity : ∀ id, ∃ after, map.addEntity ⟨id, bl, tr⟩ = some after
  delEntity : ∀ id key, map.entity_.find id = some (key, ⟨id, bl, tr⟩) →
    ∃ after, map.delEntity id = some after
  areaEid : ∃ ids, map.areaEid bl tr = some ids
  areaObstacle : ∃ found, map.areaObstacle bl tr = some found
  areaVid : ∃ ids, map.areaVid bl tr = some ids

section Counters

variable {v last : Int} {test : Int → Option Bool}

theorem pairwise_countUp {rounds : Nat} {values : List Int} (lower : -32768 ≤ v)
    (small : v ≤ 32767) (lastSmall : last ≤ 32767)
    (counted : countUp rounds v last = some values) : values.Pairwise (· < ·) := by
  induction rounds generalizing v values with
  | zero => simp [countUp] at counted
  | succ rounds ih =>
      rcases countUp_cases lower small lastSmall counted with
        ⟨-, rfl⟩ | ⟨inside, below, rest, countedRest, rfl⟩
      · exact List.Pairwise.nil
      · refine List.pairwise_cons.mpr ⟨fun later member => ?_, ih (by omega) (by omega) countedRest⟩
        have behind := (mem_countUp (by omega) (by omega) lastSmall countedRest).mp member
        omega

/-- A search up to the largest integer that finds nothing never ends. -/
theorem anyUp_forever (nothing : ∀ x, test x = some false) (rounds : Nat) (v : Int)
    (small : v ≤ 32767) : anyUp test rounds v 32767 = none := by
  induction rounds generalizing v with
  | zero => rfl
  | succ rounds ih =>
      rw [anyUp, if_pos small, nothing v]
      have range := toInt16_range (v + 1)
      exact ih _ (by omega)

end Counters

section Rectangles

variable {bl tr : Pos}

theorem nodup_cells {positions : List Pos} (blRange : Int16Pos bl) (trRange : Int16Pos tr)
    (traversed : cells bl tr = some positions) : positions.Nodup := by
  simp only [cells, Option.bind_eq_bind, Option.pure_def, Option.bind_eq_some_iff] at traversed
  obtain ⟨xs, countedX, rows, mapped, flattened⟩ := traversed
  obtain rfl := Option.some.inj flattened
  have columns := pairwise_countUp blRange.x.1 blRange.x.2 trRange.x.2 countedX
  cases countedY : countUp int16Rounds bl.y tr.y with
  | none =>
      cases xs with
      | nil =>
          obtain rfl : rows = [] := by simpa using mapped.symm
          exact List.nodup_nil
      | cons x xs => simp [countedY] at mapped
  | some ys =>
      have lines := pairwise_countUp blRange.y.1 blRange.y.2 trRange.y.2 countedY
      simp only [countedY, Option.bind_some] at mapped
      rw [show (fun x : Int => (some (ys.map fun y => (⟨x, y⟩ : Pos)))) =
        fun x => pure (ys.map fun y => (⟨x, y⟩ : Pos)) from rfl, List.mapM_pure] at mapped
      obtain rfl := Option.some.inj mapped
      refine List.nodup_flatten.mpr ⟨fun row isRow => ?_, List.pairwise_map.mpr ?_⟩
      · obtain ⟨x, -, rfl⟩ := List.mem_map.mp isRow
        refine List.pairwise_map.mpr (lines.imp fun less same => ?_)
        exact less.ne (congrArg (fun p : Pos => p.y) same)
      · refine columns.imp fun less => ?_
        intro p inFirst inSecond
        obtain ⟨_, _, rfl⟩ := List.mem_map.mp inFirst
        obtain ⟨_, _, same⟩ := List.mem_map.mp inSecond
        exact less.ne (congrArg (fun p : Pos => p.x) same).symm

/-- A search over a rectangle that is stopped at the largest coordinates ends unless its
inner loop is empty. -/
theorem exists_search_iff {test : Pos → Bool} (blRange : Int16Pos bl) (trRange : Int16Pos tr)
    (column : ∀ y, test ⟨32767, y⟩ = true) (line : ∀ x, test ⟨x, 32767⟩ = true) :
    (∃ found, anyUp (fun x => anyUp (fun y => some (test ⟨x, y⟩)) int16Rounds bl.y tr.y)
      int16Rounds bl.x tr.x = some found) ↔ ¬ EndlessSearch bl tr := by
  have columnsRange := blRange.x
  have linesRange := blRange.y
  have lastRange := trRange.x
  have topRange := trRange.y
  have inner : ∀ x, ∃ result,
      anyUp (fun y => some (test ⟨x, y⟩)) int16Rounds bl.y tr.y = some result := by
    intro x
    by_cases empty : tr.y < bl.y
    · exact ⟨false, if_neg (not_le.mpr empty)⟩
    · refine exists_anyUp (fun y => ⟨_, rfl⟩) linesRange.1 topRange.2
        (fun largest => ⟨not_lt.mp empty, ?_⟩) (by rw [int16Rounds]; omega)
      rw [largest, line]
  constructor
  · rintro ⟨found, ended⟩ ⟨largest, empty⟩
    have nothing : ∀ x,
        anyUp (fun y => some (test ⟨x, y⟩)) int16Rounds bl.y tr.y = some false :=
      fun x => if_neg (not_le.mpr empty)
    rw [largest, anyUp_forever nothing _ _ columnsRange.2] at ended
    cases ended
  · intro ends
    refine exists_anyUp inner columnsRange.1 lastRange.2
      (fun largest => ⟨largest ▸ columnsRange.2, ?_⟩) (by rw [int16Rounds]; omega)
    have nonempty : bl.y ≤ tr.y := not_lt.mp fun empty => ends ⟨largest, empty⟩
    rw [largest, int16Rounds, anyUp, if_pos nonempty, column]

end Rectangles

section Maps

variable {map : Map} {bl tr : Pos}

theorem exists_areaVid_iff (blRange : Int16Pos bl) (trRange : Int16Pos tr) :
    (∃ ids, map.areaVid bl tr = some ids) ↔ ¬ Endless bl tr := by
  rw [← exists_cells_iff blRange trRange, Map.areaVid]
  cases cells bl tr <;> simp

theorem exists_areaObstacle_iff (lenSmall : map.len_ ≤ 32767) (widSmall : map.wid_ ≤ 32767)
    (blRange : Int16Pos bl) (trRange : Int16Pos tr) :
    (∃ found, map.areaObstacle bl tr = some found) ↔ ¬ EndlessSearch bl tr := by
  refine exists_search_iff blRange trRange (fun y => ?_) fun x => ?_
  · have outside : map.checkPos ⟨32767, y⟩ = false := by simp [Map.checkPos, lenSmall]
    rw [Map.obstacle, outside]
    rfl
  · have outside : map.checkPos ⟨x, 32767⟩ = false := by simp [Map.checkPos, widSmall]
    rw [Map.obstacle, outside]
    rfl

theorem exists_haveblock_iff {world : WorldGrid} (lenSmall : world.len_ ≤ 32767)
    (widSmall : world.wid_ ≤ 32767) (blRange : Int16Pos bl) (trRange : Int16Pos tr) :
    (∃ found, world.haveblock bl tr = some found) ↔ ¬ EndlessSearch bl tr := by
  refine exists_search_iff blRange trRange (fun y => ?_) fun x => ?_
  · have outside : world.checkpos ⟨32767, y⟩ = false := by
      simp [WorldGrid.checkpos]
      omega
    rw [WorldGrid.isblock, outside]
    rfl
  · have outside : world.checkpos ⟨x, 32767⟩ = false := by
      simp [WorldGrid.checkpos]
      omega
    rw [WorldGrid.isblock, outside]
    rfl

theorem not_endlessSearch (ends : ¬ Endless bl tr) : ¬ EndlessSearch bl tr :=
  fun endless => ends (Or.inl endless.1)

theorem loopsEnd_of_not_endless (lenSmall : map.len_ ≤ 32767) (widSmall : map.wid_ ≤ 32767)
    (blRange : Int16Pos bl) (trRange : Int16Pos tr) (ends : ¬ Endless bl tr) :
    map.LoopsEnd bl tr := by
  have traverses : ∀ map : Map, ∃ positions, map.traversalArea bl tr = some positions :=
    fun map => (Map.exists_traversalArea_iff blRange trRange).mpr ends
  obtain ⟨positions, traversed⟩ := traverses map
  refine ⟨⟨positions, traversed, ?_, fun p => ?_⟩, ?_, ?_, fun id => ?_, fun id key found => ?_,
    ?_, ?_, ?_⟩
  · rw [Map.traversalArea_eq, Option.map_eq_some_iff] at traversed
    obtain ⟨all, traversed, rfl⟩ := traversed
    exact (nodup_cells blRange trRange traversed).filter _
  · exact Map.mem_traversalArea blRange trRange traversed
  · exact ⟨_, by rw [Map.addObstalce, traversed]; rfl⟩
  · exact ⟨_, by rw [Map.delObstacle, traversed]; rfl⟩
  · obtain ⟨cells, traversed⟩ := traverses
      { map with entity_ := map.entity_.put (id, ⟨id, bl, tr⟩) }
    exact ⟨_, by simp only [Map.addEntity, traversed, Option.bind_eq_bind, Option.bind_some]; rfl⟩
  · exact ⟨_, by simp only [Map.delEntity, found, traversed, Option.bind_eq_bind,
      Option.bind_some]; rfl⟩
  · exact ⟨_, by rw [Map.areaEid, traversed]; rfl⟩
  · exact (exists_areaObstacle_iff lenSmall widSmall blRange trRange).mpr (not_endlessSearch ends)
  · exact (exists_areaVid_iff blRange trRange).mpr ends

/-- The loops over a rectangle all end, and visit each of its cells once, exactly when no
loop of them runs up to the largest integer.  A search alone ends in more cases. -/
theorem loopsEnd_iff {world : WorldGrid} (lenSmall : map.len_ ≤ 32767)
    (widSmall : map.wid_ ≤ 32767) (worldLen : world.len_ ≤ 32767) (worldWid : world.wid_ ≤ 32767)
    (blRange : Int16Pos bl) (trRange : Int16Pos tr) :
    ((map.LoopsEnd bl tr ∧ ∃ found, world.haveblock bl tr = some found) ↔ ¬ Endless bl tr) ∧
      ((∃ found, map.areaObstacle bl tr = some found) ↔ ¬ EndlessSearch bl tr) ∧
      ((∃ found, world.haveblock bl tr = some found) ↔ ¬ EndlessSearch bl tr) := by
  have blocks := exists_haveblock_iff worldLen worldWid blRange trRange
  refine ⟨⟨fun loops => ?_, fun ends => ⟨?_, ?_⟩⟩, ?_, blocks⟩
  · exact (exists_areaVid_iff blRange trRange).mp loops.1.areaVid
  · exact loopsEnd_of_not_endless lenSmall widSmall blRange trRange ends
  · exact blocks.mpr (not_endlessSearch ends)
  · exact exists_areaObstacle_iff lenSmall widSmall blRange trRange

theorem loopsEnd_iff_corner :
    ((Map.create 3 3).LoopsEnd ⟨0, 0⟩ ⟨2, 2⟩ ∧
      ∃ found, (WorldGrid.create 3 3).haveblock ⟨0, 0⟩ ⟨2, 2⟩ = some found) ↔
      ¬ Endless ⟨0, 0⟩ ⟨2, 2⟩ :=
  (loopsEnd_iff (by decide) (by decide) (by decide) (by decide) ⟨by decide, by decide⟩
    ⟨by decide, by decide⟩).1

/-- A rectangle up to the largest column is traversed forever. -/
theorem not_loopsEnd_widest : ¬ (Map.create 3 3).LoopsEnd ⟨0, 0⟩ ⟨32767, 0⟩ := by
  intro loops
  have ends := (exists_areaVid_iff ⟨by decide, by decide⟩ ⟨by decide, by decide⟩).mp loops.areaVid
  exact ends (Or.inl rfl)

end Maps

end Slg

end LuaServer
