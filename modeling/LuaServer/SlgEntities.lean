import LuaServer.SlgMap
import Mathlib.Data.List.Induction

/-!
# The entity index of the strategy map

The map finds the entities of an area through its cells.  The index is exact as
long as an id is not added again while its old rectangle covers cells and
obstacles are neither placed on nor removed from the cells of an entity.
-/

namespace LuaServer

namespace Slg

open MachineIntegers

section Counters

variable {v last x : Int}

/-- A 16-bit counter never passes the largest 16-bit integer. -/
theorem countUp_forever (rounds : Nat) (v : Int) (small : v ≤ 32767) :
    countUp rounds v 32767 = none := by
  induction rounds generalizing v with
  | zero => rfl
  | succ rounds ih =>
      rw [countUp, if_pos small, ih _ (by have range := toInt16_range (v + 1); omega)]
      rfl

/-- A loop up to the largest 16-bit integer does not return. -/
theorem last_lt_of_countUp {rounds : Nat} {values : List Int} (small : v ≤ 32767)
    (lastSmall : last ≤ 32767) (counted : countUp rounds v last = some values) :
    last < 32767 := by
  refine lt_of_le_of_ne lastSmall fun largest => ?_
  rw [largest, countUp_forever _ v small] at counted
  exact nomatch counted

/-- A loop that returns is behind its bound, or makes one round and goes on. -/
theorem countUp_cases {rounds : Nat} {values : List Int} (lower : -32768 ≤ v) (small : v ≤ 32767)
    (lastSmall : last ≤ 32767) (counted : countUp (rounds + 1) v last = some values) :
    last < v ∧ values = [] ∨ v ≤ last ∧ last < 32767 ∧
      ∃ rest, countUp rounds (v + 1) last = some rest ∧ values = v :: rest := by
  have below := last_lt_of_countUp small lastSmall counted
  rw [countUp] at counted
  split at counted
  next inside =>
    obtain ⟨rest, countedRest, rfl⟩ := Option.map_eq_some_iff.mp counted
    rw [toInt16_of_range (by omega) (by omega)] at countedRest
    exact Or.inr ⟨inside, below, rest, countedRest, rfl⟩
  next outside =>
    obtain rfl := Option.some.inj counted
    exact Or.inl ⟨not_le.mp outside, rfl⟩

theorem mem_countUp {rounds : Nat} {values : List Int} (lower : -32768 ≤ v)
    (small : v ≤ 32767) (lastSmall : last ≤ 32767)
    (counted : countUp rounds v last = some values) : x ∈ values ↔ v ≤ x ∧ x ≤ last := by
  induction rounds generalizing v values with
  | zero => simp [countUp] at counted
  | succ rounds ih =>
      rcases countUp_cases lower small lastSmall counted with
        ⟨outside, rfl⟩ | ⟨inside, below, rest, countedRest, rfl⟩
      · simp only [List.not_mem_nil, false_iff]
        omega
      · rw [List.mem_cons, ih (by omega) (by omega) countedRest]
        omega

theorem exists_countUp {rounds : Nat} (lower : -32768 ≤ v) (below : last < 32767)
    (enough : (last + 1 - v).toNat < rounds) : ∃ values, countUp rounds v last = some values := by
  induction rounds generalizing v with
  | zero => exact absurd enough (Nat.not_lt_zero _)
  | succ rounds ih =>
      rw [countUp]
      split
      next inside =>
        rw [toInt16_of_range (by omega) (by omega)]
        obtain ⟨rest, counted⟩ := ih (v := v + 1) (by omega) (by omega)
        exact ⟨v :: rest, by rw [counted]; rfl⟩
      next outside => exact ⟨[], rfl⟩

/-- A loop that returns `false` has seen `false` everywhere. -/
theorem of_anyUp_eq_false {test : Int → Option Bool} {rounds : Nat} (lower : -32768 ≤ v)
    (lastSmall : last ≤ 32767) (found : anyUp test rounds v last = some false)
    (from_ : v ≤ x) (upTo : x ≤ last) : test x = some false := by
  induction rounds generalizing v with
  | zero => simp [anyUp] at found
  | succ rounds ih =>
      rw [anyUp, if_pos (by omega)] at found
      cases tested : test v with
      | none => simp [tested] at found
      | some result =>
          cases result with
          | true => simp [tested] at found
          | false =>
              simp only [tested] at found
              rcases eq_or_lt_of_le from_ with rfl | less
              · exact tested
              · rw [toInt16_of_range (by omega) (by omega)] at found
                exact ih (by omega) found (by omega)

/-- A search ends, also one up to the largest integer that finds something there. -/
theorem exists_anyUp {test : Int → Option Bool} (tests : ∀ x, ∃ result, test x = some result)
    {rounds : Nat} (lower : -32768 ≤ v) (lastSmall : last ≤ 32767)
    (stops : last = 32767 → v ≤ last ∧ test last = some true)
    (enough : (last + 1 - v).toNat < rounds) :
    ∃ result, anyUp test rounds v last = some result := by
  induction rounds generalizing v with
  | zero => exact absurd enough (Nat.not_lt_zero _)
  | succ rounds ih =>
      rw [anyUp]
      split
      next inside =>
        obtain ⟨result, tested⟩ := tests v
        rw [tested]
        cases result with
        | true => exact ⟨true, rfl⟩
        | false =>
            have notLargest : v = last → last ≠ 32767 := by
              rintro rfl largest
              exact absurd (tested.symm.trans (stops largest).2) (by decide)
            simp only
            rw [toInt16_of_range (by omega) (by omega)]
            exact ih (by omega) (fun largest => ⟨by omega, (stops largest).2⟩) (by omega)
      next outside => exact ⟨false, rfl⟩

end Counters

/-- A position with 16-bit coordinates. -/
structure Int16Pos (p : Pos) : Prop where
  x : -32768 ≤ p.x ∧ p.x ≤ 32767
  y : -32768 ≤ p.y ∧ p.y ≤ 32767

theorem Corners.int16 (corners : Corners) :
    Int16Pos corners.first ∧ Int16Pos corners.second := by
  have ranges := fun value => toInt16_range value
  have one := ranges corners.1
  have two := ranges corners.2.1
  have three := ranges corners.2.2.1
  have four := ranges corners.2.2.2
  exact ⟨⟨⟨one.1, by simp only [Corners.first]; omega⟩,
      ⟨two.1, by simp only [Corners.first]; omega⟩⟩,
    ⟨⟨three.1, by simp only [Corners.second]; omega⟩,
      ⟨four.1, by simp only [Corners.second]; omega⟩⟩⟩

/-- The loops over a rectangle that do not end. -/
def Endless (bl tr : Pos) : Prop :=
  tr.x = 32767 ∨ bl.x ≤ tr.x ∧ tr.y = 32767

section Cells

variable {bl tr p : Pos}

theorem mem_cells {positions : List Pos} (blRange : Int16Pos bl) (trRange : Int16Pos tr)
    (traversed : cells bl tr = some positions) : p ∈ positions ↔ inarea p bl tr := by
  simp only [cells, Option.bind_eq_bind, Option.pure_def, Option.bind_eq_some_iff] at traversed
  obtain ⟨xs, countedX, rows, mapped, flattened⟩ := traversed
  obtain rfl := Option.some.inj flattened
  have columns := fun x : Int => mem_countUp (x := x) blRange.x.1 blRange.x.2 trRange.x.2 countedX
  rw [inarea_iff]
  cases countedY : countUp int16Rounds bl.y tr.y with
  | none =>
      cases xs with
      | nil =>
          have empty := columns p.x
          obtain rfl : rows = [] := by simpa using mapped.symm
          simp only [List.not_mem_nil, false_iff] at empty
          simp only [List.flatten_nil, List.not_mem_nil, false_iff]
          omega
      | cons x xs => simp [countedY] at mapped
  | some ys =>
      have lines := fun y : Int => mem_countUp (x := y) blRange.y.1 blRange.y.2 trRange.y.2 countedY
      simp only [countedY, Option.bind_some] at mapped
      rw [show (fun x : Int => (some (ys.map fun y => (⟨x, y⟩ : Pos)))) =
        fun x => pure (ys.map fun y => (⟨x, y⟩ : Pos)) from rfl, List.mapM_pure] at mapped
      obtain rfl := Option.some.inj mapped
      rw [List.mem_flatten]
      constructor
      · rintro ⟨row, isRow, inRow⟩
        obtain ⟨x, isColumn, rfl⟩ := List.mem_map.mp isRow
        obtain ⟨y, isLine, rfl⟩ := List.mem_map.mp inRow
        exact ⟨((columns x).mp isColumn).1, ((columns x).mp isColumn).2, (lines y).mp isLine⟩
      · rintro ⟨left, right, below, above⟩
        exact ⟨_, List.mem_map.mpr ⟨p.x, (columns p.x).mpr ⟨left, right⟩, rfl⟩,
          List.mem_map.mpr ⟨p.y, (lines p.y).mpr ⟨below, above⟩, rfl⟩⟩

theorem exists_cells_iff (blRange : Int16Pos bl) (trRange : Int16Pos tr) :
    (∃ positions, cells bl tr = some positions) ↔ ¬ Endless bl tr := by
  have columnsRange := blRange.x
  have linesRange := blRange.y
  have lastRange := trRange.x
  have topRange := trRange.y
  constructor
  · rintro ⟨positions, traversed⟩ endless
    simp only [cells, Option.bind_eq_bind, Option.pure_def, Option.bind_eq_some_iff] at traversed
    obtain ⟨xs, countedX, rows, mapped, -⟩ := traversed
    rcases endless with largest | ⟨nonempty, largest⟩
    · rw [largest, countUp_forever _ _ columnsRange.2] at countedX
      simp at countedX
    · rw [largest, countUp_forever _ _ linesRange.2] at mapped
      have first := (mem_countUp (x := bl.x) columnsRange.1 columnsRange.2 lastRange.2
        countedX).mpr ⟨le_refl _, nonempty⟩
      cases xs with
      | nil => simp at first
      | cons x xs => simp at mapped
  · intro ends
    rw [Endless, not_or] at ends
    obtain ⟨xs, countedX⟩ : ∃ xs, countUp int16Rounds bl.x tr.x = some xs :=
      exists_countUp columnsRange.1 (by omega) (by rw [int16Rounds]; omega)
    simp only [cells, countedX, Option.bind_eq_bind, Option.bind_some, Option.pure_def]
    by_cases nonempty : bl.x ≤ tr.x
    · obtain ⟨ys, countedY⟩ : ∃ ys, countUp int16Rounds bl.y tr.y = some ys :=
        exists_countUp linesRange.1 (by omega) (by rw [int16Rounds]; omega)
      simp only [countedY, Option.bind_some]
      rw [show (fun x : Int => (some (ys.map fun y => (⟨x, y⟩ : Pos)))) =
        fun x => pure (ys.map fun y => (⟨x, y⟩ : Pos)) from rfl, List.mapM_pure]
      exact ⟨_, rfl⟩
    · have empty : xs = [] := by
        refine List.eq_nil_iff_forall_not_mem.mpr fun x isColumn => ?_
        have := (mem_countUp columnsRange.1 columnsRange.2 lastRange.2 countedX).mp isColumn
        omega
      rw [empty]
      exact ⟨_, rfl⟩

/-- A search over a rectangle that finds nothing has looked everywhere. -/
theorem of_anyUp_anyUp_eq_false {test : Pos → Bool} (blRange : Int16Pos bl)
    (trRange : Int16Pos tr)
    (found : anyUp (fun x => anyUp (fun y => some (test ⟨x, y⟩)) int16Rounds bl.y tr.y)
      int16Rounds bl.x tr.x = some false) (inside : inarea p bl tr) : test p = false := by
  obtain ⟨left, right, bottom, top⟩ := inarea_iff.mp inside
  have column := of_anyUp_eq_false blRange.x.1 trRange.x.2 found left right
  have cell := of_anyUp_eq_false blRange.y.1 trRange.y.2 column bottom top
  exact Option.some.inj cell

end Cells

namespace Map

variable {map : Map} {bl tr p : Pos}

theorem traversalArea_eq :
    map.traversalArea bl tr =
      (cells bl tr).map fun positions => positions.filter fun p => map.checkPos p := by
  simp only [traversalArea, cells, Option.bind_eq_bind, Option.pure_def, Option.map_bind,
    Option.map_some, Function.comp_def]

theorem mem_traversalArea {cells : List Pos} (blRange : Int16Pos bl) (trRange : Int16Pos tr)
    (traversed : map.traversalArea bl tr = some cells) :
    p ∈ cells ↔ map.checkPos p ∧ inarea p bl tr := by
  rw [traversalArea_eq, Option.map_eq_some_iff] at traversed
  obtain ⟨positions, traversed, rfl⟩ := traversed
  rw [List.mem_filter, mem_cells blRange trRange traversed, and_comm]

theorem exists_traversalArea_iff (blRange : Int16Pos bl) (trRange : Int16Pos tr) :
    (∃ cells, map.traversalArea bl tr = some cells) ↔ ¬ Endless bl tr := by
  rw [← exists_cells_iff blRange trRange, traversalArea_eq]
  simp [Option.map_eq_some_iff]

theorem of_areaObstacle_eq_false (blRange : Int16Pos bl) (trRange : Int16Pos tr)
    (free : map.areaObstacle bl tr = some false) (inside : inarea p bl tr) :
    map.obstacle p = false :=
  of_anyUp_anyUp_eq_false blRange trRange free inside

theorem setEids_pos_eid (cells : List Pos) (eid : Option Int) (p : Pos) :
    (map.setEids cells eid).posEid_ p = if p ∈ cells then eid else map.posEid_ p := by
  unfold setEids
  induction cells generalizing map with
  | nil => simp
  | cons first cells ih =>
      rw [List.foldl_cons, ih]
      by_cases later : p ∈ cells
      · simp [later]
      · by_cases same : p = first
        · subst same
          simp [later]
        · simp [later, same, Function.update_of_ne]

@[simp]
theorem setEids_entity_ (cells : List Pos) (eid : Option Int) :
    (map.setEids cells eid).entity_ = map.entity_ := by
  unfold setEids
  induction cells generalizing map with
  | nil => rfl
  | cons first cells ih => rw [List.foldl_cons, ih]

@[simp]
theorem setEids_checkPos (cells : List Pos) (eid : Option Int) (p : Pos) :
    (map.setEids cells eid).checkPos p = map.checkPos p := by
  unfold setEids
  induction cells generalizing map with
  | nil => rfl
  | cons first cells ih =>
      rw [List.foldl_cons, ih]
      rfl

/-- A free cell lies in the map and has no id. -/
theorem obstacle_eq_false_iff :
    map.obstacle p = false ↔ map.checkPos p ∧ map.posEid_ p = none := by
  cases inMap : map.checkPos p <;> simp [obstacle, inMap]

/-- The live entity `id` contains `p`. -/
def Covers (map : Map) (id : Int) (p : Pos) : Prop :=
  ∃ entity, (id, entity) ∈ map.entity_ ∧ inarea p entity.bl_ entity.tr_

/-- The ids of `area_eid` are the ids in the cells of the rectangle. -/
theorem mem_areaEid {ids : IdSet} {id : Int} (blRange : Int16Pos bl) (trRange : Int16Pos tr)
    (listed : map.areaEid bl tr = some ids) :
    id ∈ ids ↔ id ≠ OBSTACLE_ID ∧
      ∃ p, map.checkPos p ∧ inarea p bl tr ∧ map.posEid_ p = some id := by
  simp only [areaEid, Option.bind_eq_bind, Option.pure_def, Option.bind_eq_some_iff] at listed
  obtain ⟨cells, traversed, collected⟩ := listed
  obtain rfl := Option.some.inj collected
  refine (KeySorted.mem_foldl_iff (fun p => id ≠ OBSTACLE_ID ∧ map.posEid_ p = some id)
    (fun set_ p => ?_) cells (KeySorted.empty _)).trans ?_
  · cases held : map.posEid_ p with
    | none => simp
    | some other =>
        by_cases obstacle : other = OBSTACLE_ID
        · have differs : id ≠ OBSTACLE_ID → other ≠ id := fun proper same =>
            proper (same.symm.trans obstacle)
          simp only [if_pos obstacle, Option.some.injEq]
          tauto
        · simp only [if_neg obstacle, KeySorted.mem_put, Option.some.injEq, id_eq]
          have differs : other = id → id ≠ OBSTACLE_ID := fun same proper =>
            obstacle (same.trans proper)
          have symmetric : other = id ↔ id = other := eq_comm
          tauto
  · simp only [KeySorted.not_mem_empty, false_or, mem_traversalArea blRange trRange traversed,
      and_assoc, exists_and_left, and_left_comm]

end Map

section Index

/-- The operations on the entities and the obstacles of a map. -/
inductive EntityEvent where
  | addEntity (id : Int) (corners : Corners)
  | delEntity (id : Int)
  | addObstalce (corners : Corners)
  | delObstacle (corners : Corners)

/-- A map and the positions of the obstacles that stand on it. -/
structure Built where
  map : Map
  placed : Pos → Bool

/-- One operation, which ends.  An entity is added to an area without obstacles. -/
def Built.step (built : Built) : EntityEvent → Option Built
  | .addEntity id corners =>
      if built.map.areaObstacle corners.first corners.second = some false then
        (built.map.addEntity ⟨id, corners.first, corners.second⟩).map (⟨·, built.placed⟩)
      else none
  | .delEntity id => (built.map.delEntity id).map (⟨·, built.placed⟩)
  | .addObstalce corners =>
      (built.map.addObstalce corners.first corners.second).map
        (⟨·, fun p => built.placed p || inarea p corners.first corners.second⟩)
  | .delObstacle corners =>
      (built.map.delObstacle corners.first corners.second).map
        (⟨·, fun p => built.placed p && !inarea p corners.first corners.second⟩)

def Built.create (len wid : Int) : Built :=
  ⟨Map.create len wid, fun _ => false⟩

/-- The tables of entities and cells agree, and so does what is read from them. -/
structure Built.IndexExact (built : Built) : Prop where
  cell : ∀ p id, built.map.checkPos p → (built.map.posEid_ p = some id ∧ id ≠ Map.OBSTACLE_ID ↔
    built.map.Covers id p)
  area : ∀ corners : Corners, ¬ Endless corners.first corners.second →
    ∃ ids, built.map.areaEid corners.first corners.second = some ids ∧
      ∀ id, id ∈ ids ↔ ∃ p, built.map.Covers id p ∧ inarea p corners.first corners.second
  free : ∀ p, built.map.checkPos p → (∀ id, ¬ built.map.Covers id p) → built.placed p = false →
    built.map.obstacle p = false

/-- An id is not added again while its entity covers cells, nor is the id of the
obstacles used for an entity with cells, and obstacles stay away from entities. -/
def Built.Apart (built : Built) : EntityEvent → Prop
  | .addEntity id corners =>
      (∀ p, ¬ built.map.Covers id p) ∧
        (id = Map.OBSTACLE_ID → ∀ p, inarea p corners.first corners.second = false)
  | .delEntity _ => True
  | .addObstalce corners =>
      ∀ id p, built.map.Covers id p → inarea p corners.first corners.second = false
  | .delObstacle corners =>
      ∀ id p, built.map.Covers id p → inarea p corners.first corners.second = false

/-- The state after some operations, if all of them end. -/
def Built.run (len wid : Int) (events : List EntityEvent) : Option Built :=
  events.foldlM Built.step (Built.create len wid)

/-- What every step preserves. -/
structure Built.Indexed (built : Built) : Prop where
  corners : ∀ id entity, (id, entity) ∈ built.map.entity_ →
    Int16Pos entity.bl_ ∧ Int16Pos entity.tr_
  inMap : ∀ id p, built.map.Covers id p → built.map.checkPos p
  cell : ∀ p id, built.map.posEid_ p = some id ∧ id ≠ Map.OBSTACLE_ID ↔ built.map.Covers id p
  standing : ∀ p, built.map.posEid_ p = some Map.OBSTACLE_ID →
    built.map.checkPos p ∧ built.placed p = true

namespace Built

variable {built after : Built}

/-- `add_entity` writes its id into the cells of an area without obstacles. -/
theorem step_addEntity {id : Int} {corners : Corners}
    (stepped : built.step (.addEntity id corners) = some after) :
    built.map.areaObstacle corners.first corners.second = some false ∧
      ∃ cells, built.map.traversalArea corners.first corners.second = some cells ∧
        after = ⟨Map.setEids { built.map with
          entity_ := built.map.entity_.put (id, ⟨id, corners.first, corners.second⟩) }
            cells (some id), built.placed⟩ := by
  simp only [step, Option.ite_none_right_eq_some, Option.map_eq_some_iff, Map.addEntity,
    Option.bind_eq_bind, Option.pure_def, Option.bind_eq_some_iff] at stepped
  obtain ⟨free, map, ⟨cells, traversed, added⟩, rfl⟩ := stepped
  obtain rfl := Option.some.inj added
  exact ⟨free, cells, traversed, rfl⟩

theorem step_addObstalce {corners : Corners}
    (stepped : built.step (.addObstalce corners) = some after) :
    ∃ cells, built.map.traversalArea corners.first corners.second = some cells ∧
      after = ⟨built.map.setEids cells (some Map.OBSTACLE_ID),
        fun p => built.placed p || inarea p corners.first corners.second⟩ := by
  simp only [step, Map.addObstalce, Option.bind_eq_bind, Option.pure_def,
    Option.map_eq_some_iff, Option.bind_eq_some_iff] at stepped
  obtain ⟨map, ⟨cells, traversed, placed⟩, rfl⟩ := stepped
  obtain rfl := Option.some.inj placed
  exact ⟨cells, traversed, rfl⟩

theorem step_delObstacle {corners : Corners}
    (stepped : built.step (.delObstacle corners) = some after) :
    ∃ cells, built.map.traversalArea corners.first corners.second = some cells ∧
      after = ⟨built.map.setEids cells none,
        fun p => built.placed p && !inarea p corners.first corners.second⟩ := by
  simp only [step, Map.delObstacle, Option.bind_eq_bind, Option.pure_def,
    Option.map_eq_some_iff, Option.bind_eq_some_iff] at stepped
  obtain ⟨map, ⟨cells, traversed, removed⟩, rfl⟩ := stepped
  obtain rfl := Option.some.inj removed
  exact ⟨cells, traversed, rfl⟩

theorem covers_put {map : Map} {id other : Int} {entity : Entity} {cells : List Pos}
    {eid : Option Int} {p : Pos} :
    (Map.setEids { map with entity_ := map.entity_.put (id, entity) } cells eid).Covers other p ↔
      other = id ∧ inarea p entity.bl_ entity.tr_ ∨ other ≠ id ∧ map.Covers other p := by
  simp only [Map.Covers, Map.setEids_entity_, KeySorted.mem_put, Prod.mk.injEq]
  constructor
  · rintro ⟨otherEntity, ⟨same, rfl⟩ | ⟨live, differs⟩, inside⟩
    · exact Or.inl ⟨same, inside⟩
    · exact Or.inr ⟨differs, otherEntity, live, inside⟩
  · rintro (⟨same, inside⟩ | ⟨differs, otherEntity, live, inside⟩)
    · exact ⟨entity, Or.inl ⟨same, rfl⟩, inside⟩
    · exact ⟨otherEntity, Or.inr ⟨live, differs⟩, inside⟩

theorem covers_setEids {map : Map} {cells : List Pos} {eid : Option Int} {id : Int} {p : Pos} :
    (map.setEids cells eid).Covers id p ↔ map.Covers id p := by
  simp only [Map.Covers, Map.setEids_entity_]

theorem indexed_create (len wid : Int) : (create len wid).Indexed where
  corners := fun id entity live => absurd live KeySorted.not_mem_empty
  inMap := fun id p ⟨_, live, _⟩ => absurd live KeySorted.not_mem_empty
  cell := fun p id =>
    ⟨fun ⟨held, _⟩ => by simp [create, Map.create] at held,
      fun ⟨_, live, _⟩ => absurd live KeySorted.not_mem_empty⟩
  standing := fun p held => by simp [create, Map.create] at held

namespace Indexed

variable (indexed : built.Indexed)
include indexed

theorem addEntity {id : Int} {corners : Corners} (apart : built.Apart (.addEntity id corners))
    (stepped : built.step (.addEntity id corners) = some after) : after.Indexed := by
  obtain ⟨unused, proper⟩ := apart
  obtain ⟨firstRange, secondRange⟩ := corners.int16
  obtain ⟨free, cells, traversed, rfl⟩ := step_addEntity stepped
  have inCells := fun p => Map.mem_traversalArea (p := p) firstRange secondRange traversed
  have empty := fun p => Map.of_areaObstacle_eq_false (p := p) firstRange secondRange free
  have covers : ∀ other p, (Map.setEids { built.map with
        entity_ := built.map.entity_.put (id, ⟨id, corners.first, corners.second⟩) }
      cells (some id)).Covers other p ↔
      other = id ∧ inarea p corners.first corners.second ∨ built.map.Covers other p := by
    intro other p
    rw [covers_put,
      and_iff_right_of_imp fun covered (same : other = id) => unused p (same ▸ covered)]
  constructor
  · intro other entity live
    simp only [Map.setEids_entity_, KeySorted.mem_put, Prod.mk.injEq] at live
    rcases live with ⟨-, rfl⟩ | ⟨live, -⟩
    · exact ⟨firstRange, secondRange⟩
    · exact indexed.corners other entity live
  · intro other p covered
    rw [Map.setEids_checkPos]
    rcases (covers other p).mp covered with ⟨-, inside⟩ | covered
    · exact (Map.obstacle_eq_false_iff.mp (empty p inside)).1
    · exact indexed.inMap other p covered
  · intro p other
    rw [Map.setEids_pos_eid, covers]
    by_cases inside : inarea p corners.first corners.second
    · obtain ⟨inMap, unheld⟩ := Map.obstacle_eq_false_iff.mp (empty p inside)
      have uncovered : ¬ built.map.Covers other p := fun covered => by
        simpa [unheld] using ((indexed.cell p other).mpr covered).1
      have isProper : id ≠ Map.OBSTACLE_ID := fun same => by simp [proper same p] at inside
      rw [if_pos ((inCells p).mpr ⟨inMap, inside⟩)]
      simp only [Option.some.injEq, inside, and_true, uncovered, or_false]
      constructor
      · rintro ⟨same, -⟩
        exact same.symm
      · rintro rfl
        exact ⟨rfl, isProper⟩
    · rw [if_neg fun inCell => inside ((inCells p).mp inCell).2]
      simpa [inside] using indexed.cell p other
  · intro p held
    rw [Map.setEids_pos_eid] at held
    split at held
    next inCell =>
      have inside := ((inCells p).mp inCell).2
      simp [proper (Option.some.inj held) p] at inside
    next =>
      rw [Map.setEids_checkPos]
      exact indexed.standing p held

theorem delEntity {id : Int} (stepped : built.step (.delEntity id) = some after) :
    after.Indexed := by
  simp only [step, Map.delEntity, Option.map_eq_some_iff] at stepped
  obtain ⟨map, deleted, rfl⟩ := stepped
  split at deleted
  next =>
    obtain rfl := Option.some.inj deleted
    exact ⟨indexed.corners, indexed.inMap, indexed.cell, indexed.standing⟩
  next key entity found =>
    obtain ⟨live, rfl⟩ := KeySorted.find_eq_some.mp found
    simp only [Option.bind_eq_bind, Option.pure_def, Option.bind_eq_some_iff] at deleted
    obtain ⟨cells, traversed, deleted⟩ := deleted
    obtain rfl := Option.some.inj deleted
    obtain ⟨firstRange, secondRange⟩ := indexed.corners key entity live
    have inCells := fun p => Map.mem_traversalArea (p := p) firstRange secondRange traversed
    -- the cells of the deleted entity carry its id
    have own : ∀ p other, built.map.Covers other p → (p ∈ cells ↔ other = key) := by
      intro p other covered
      obtain ⟨otherEntity, otherLive, inside⟩ := covered
      constructor
      · intro inCell
        have held := ((indexed.cell p key).mpr ⟨entity, live, ((inCells p).mp inCell).2⟩).1
        have otherHeld := ((indexed.cell p other).mpr ⟨otherEntity, otherLive, inside⟩).1
        exact Option.some.inj (otherHeld.symm.trans held)
      · rintro rfl
        obtain ⟨-, rfl⟩ := Prod.mk.inj (KeySorted.eq_of_key_eq otherLive live rfl)
        exact (inCells p).mpr ⟨indexed.inMap other p ⟨otherEntity, live, inside⟩, inside⟩
    have covers : ∀ other p, Map.Covers { built.map.setEids cells none with
        entity_ := (built.map.setEids cells none).entity_.drop key } other p ↔
        other ≠ key ∧ built.map.Covers other p := by
      intro other p
      simp only [Map.Covers, Map.setEids_entity_, KeySorted.mem_drop]
      constructor
      · rintro ⟨otherEntity, ⟨otherLive, differs⟩, inside⟩
        exact ⟨differs, otherEntity, otherLive, inside⟩
      · rintro ⟨differs, otherEntity, otherLive, inside⟩
        exact ⟨otherEntity, ⟨otherLive, differs⟩, inside⟩
    constructor
    · intro other otherEntity otherLive
      simp only [Map.setEids_entity_, KeySorted.mem_drop] at otherLive
      exact indexed.corners other otherEntity otherLive.1
    · intro other p covered
      exact (Map.setEids_checkPos cells none p).trans
        (indexed.inMap other p ((covers other p).mp covered).2)
    · intro p other
      rw [covers]
      change (built.map.setEids cells none).posEid_ p = some other ∧ _ ↔ _
      rw [Map.setEids_pos_eid]
      by_cases inCell : p ∈ cells
      · simp only [if_pos inCell, reduceCtorEq, false_and, false_iff, not_and]
        intro differs covered
        exact differs ((own p other covered).mp inCell)
      · rw [if_neg inCell, indexed.cell]
        exact ⟨fun covered => ⟨fun same => inCell ((own p other covered).mpr same), covered⟩,
          And.right⟩
    · intro p held
      change (built.map.setEids cells none).posEid_ p = _ at held
      rw [Map.setEids_pos_eid] at held
      split at held
      · simp at held
      · obtain ⟨inMap, stands⟩ := indexed.standing p held
        exact ⟨(Map.setEids_checkPos cells none p).trans inMap, stands⟩

/-- Obstacles change the cells of their rectangle alone. -/
theorem setEids {cells : List Pos} {eid : Option Int} {placed : Pos → Bool}
    (obstacles : eid = none ∨ eid = some Map.OBSTACLE_ID)
    (apart : ∀ id p, built.map.Covers id p → p ∉ cells)
    (inCells : ∀ p ∈ cells, eid = some Map.OBSTACLE_ID →
      built.map.checkPos p ∧ placed p = true)
    (outside : ∀ p ∉ cells, built.map.checkPos p → built.placed p = true → placed p = true) :
    Indexed ⟨built.map.setEids cells eid, placed⟩ := by
  constructor
  · intro id entity live
    exact indexed.corners id entity (by simpa using live)
  · intro id p covered
    exact (Map.setEids_checkPos cells eid p).trans (indexed.inMap id p (covers_setEids.mp covered))
  · intro p id
    rw [covers_setEids, Map.setEids_pos_eid]
    by_cases inCell : p ∈ cells
    · rw [if_pos inCell]
      refine ⟨fun ⟨held, proper⟩ => ?_, fun covered => absurd inCell (apart id p covered)⟩
      rcases obstacles with rfl | rfl
      · simp at held
      · exact absurd (Option.some.inj held).symm proper
    · rw [if_neg inCell, indexed.cell]
  · intro p held
    rw [Map.setEids_pos_eid] at held
    rw [Map.setEids_checkPos]
    split at held
    next inCell => exact inCells p inCell held
    next outCell =>
      obtain ⟨inMap, stands⟩ := indexed.standing p held
      exact ⟨inMap, outside p outCell inMap stands⟩

theorem step (event : EntityEvent) (apart : built.Apart event)
    (stepped : built.step event = some after) : after.Indexed := by
  cases event with
  | addEntity id corners => exact indexed.addEntity apart stepped
  | delEntity id => exact indexed.delEntity stepped
  | addObstalce corners =>
      obtain ⟨cells, traversed, rfl⟩ := step_addObstalce stepped
      have inCells := fun p =>
        Map.mem_traversalArea (p := p) corners.int16.1 corners.int16.2 traversed
      refine indexed.setEids (Or.inr rfl) (fun id p covered inCell => ?_) (fun p inCell _ => ?_)
        fun p _ _ stands => by simp [stands]
      · simp [apart id p covered, inCells] at inCell
      · obtain ⟨inMap, inside⟩ := (inCells p).mp inCell
        exact ⟨inMap, by simp [inside]⟩
  | delObstacle corners =>
      obtain ⟨cells, traversed, rfl⟩ := step_delObstacle stepped
      have inCells := fun p =>
        Map.mem_traversalArea (p := p) corners.int16.1 corners.int16.2 traversed
      refine indexed.setEids (Or.inl rfl) (fun id p covered inCell => ?_) (fun p inCell held => ?_)
        fun p outCell inMap stands => ?_
      · simp [apart id p covered, inCells] at inCell
      · simp at held
      · rw [inCells] at outCell
        simp only [inMap, true_and] at outCell
        simp [stands, outCell]

/-- Writing anything but its id into a cell of an entity is seen in the index. -/
theorem apart_of_setEids {cells : List Pos} {eid : Option Int} {placed : Pos → Bool}
    (obstacles : eid = none ∨ eid = some Map.OBSTACLE_ID)
    (exact : IndexExact ⟨built.map.setEids cells eid, placed⟩) {id : Int} {p : Pos}
    (covered : built.map.Covers id p) : p ∉ cells := by
  intro inCell
  have inMap := (Map.setEids_checkPos cells eid p).trans (indexed.inMap id p covered)
  obtain ⟨held, proper⟩ := (exact.cell p id inMap).mpr (covers_setEids.mpr covered)
  rw [Map.setEids_pos_eid, if_pos inCell] at held
  rcases obstacles with rfl | rfl
  · simp at held
  · exact proper (Option.some.inj held).symm

/-- A step behind which the index is exact has kept entities and obstacles apart. -/
theorem apart_of_indexExact (event : EntityEvent) (stepped : built.step event = some after)
    (exact : after.IndexExact) : built.Apart event := by
  cases event with
  | addEntity id corners =>
      obtain ⟨firstRange, secondRange⟩ := corners.int16
      obtain ⟨free, cells, traversed, rfl⟩ := step_addEntity stepped
      have inCells := fun p => Map.mem_traversalArea (p := p) firstRange secondRange traversed
      have empty := fun p inside => Map.obstacle_eq_false_iff.mp
        (Map.of_areaObstacle_eq_false (p := p) firstRange secondRange free inside)
      constructor
      · intro p covered
        obtain ⟨held, proper⟩ := (indexed.cell p id).mpr covered
        have outside : ¬ inarea p corners.first corners.second := fun inside => by
          simp [(empty p inside).2] at held
        have inMap := indexed.inMap id p covered
        -- the cell of the replaced entity still carries the id
        have stale := (exact.cell p id (by rw [Map.setEids_checkPos]; exact inMap)).mp
          ⟨by rw [Map.setEids_pos_eid, if_neg fun inCell => outside ((inCells p).mp inCell).2]
              exact held, proper⟩
        rcases covers_put.mp stale with ⟨-, inside⟩ | ⟨differs, -⟩
        · exact outside inside
        · exact differs rfl
      · intro isObstacle p
        by_contra inside
        rw [Bool.not_eq_false] at inside
        have inMap := (empty p inside).1
        exact ((exact.cell p id (by rw [Map.setEids_checkPos]; exact inMap)).mpr
          (covers_put.mpr (Or.inl ⟨rfl, inside⟩))).2 isObstacle
  | delEntity id => exact trivial
  | addObstalce corners =>
      obtain ⟨cells, traversed, rfl⟩ := step_addObstalce stepped
      intro id p covered
      have outCell := indexed.apart_of_setEids (Or.inr rfl) exact covered
      rw [Map.mem_traversalArea corners.int16.1 corners.int16.2 traversed] at outCell
      simpa [indexed.inMap id p covered] using outCell
  | delObstacle corners =>
      obtain ⟨cells, traversed, rfl⟩ := step_delObstacle stepped
      intro id p covered
      have outCell := indexed.apart_of_setEids (Or.inl rfl) exact covered
      rw [Map.mem_traversalArea corners.int16.1 corners.int16.2 traversed] at outCell
      simpa [indexed.inMap id p covered] using outCell

theorem indexExact : built.IndexExact := by
  constructor
  · intro p id _
    exact indexed.cell p id
  · intro corners ends
    obtain ⟨firstRange, secondRange⟩ := corners.int16
    obtain ⟨cells, traversed⟩ :=
      (@Map.exists_traversalArea_iff built.map _ _ firstRange secondRange).mpr ends
    obtain ⟨ids, listed⟩ : ∃ ids, built.map.areaEid corners.first corners.second = some ids := by
      simp only [Map.areaEid, traversed, Option.bind_eq_bind, Option.bind_some, Option.pure_def]
      exact ⟨_, rfl⟩
    refine ⟨ids, listed, fun id => ?_⟩
    rw [Map.mem_areaEid firstRange secondRange listed]
    constructor
    · rintro ⟨proper, p, -, inside, held⟩
      exact ⟨p, (indexed.cell p id).mp ⟨held, proper⟩, inside⟩
    · rintro ⟨p, covered, inside⟩
      obtain ⟨held, proper⟩ := (indexed.cell p id).mpr covered
      exact ⟨proper, p, indexed.inMap id p covered, inside, held⟩
  · intro p inMap uncovered clear
    rw [Map.obstacle_eq_false_iff]
    refine ⟨inMap, Option.eq_none_iff_forall_ne_some.mpr fun id held => ?_⟩
    by_cases proper : id = Map.OBSTACLE_ID
    · subst proper
      simp [(indexed.standing p held).2] at clear
    · exact uncovered id ((indexed.cell p id).mp ⟨held, proper⟩)

end Indexed

theorem run_concat (len wid : Int) (events : List EntityEvent) (event : EntityEvent) :
    run len wid (events ++ [event]) = (run len wid events).bind (·.step event) := by
  simp only [run, List.foldlM_append, List.foldlM_cons, List.foldlM_nil, Option.bind_eq_bind]
  cases List.foldlM step (create len wid) events with
  | none => rfl
  | some built => exact bind_pure (built.step event)

end Built

/-- In a run the tables of entities and cells agree all the time if and only if
every step keeps entities and obstacles apart. -/
theorem indexExact_iff_apart (len wid : Int) (events : List EntityEvent) :
    (∀ before, before <+: events → ∀ built, Built.run len wid before = some built →
      built.IndexExact) ↔
    ∀ before event, before ++ [event] <+: events → ∀ built after,
      Built.run len wid before = some built → built.step event = some after →
      built.Apart event := by
  constructor
  · intro exact
    have indexed : ∀ before, before <+: events → ∀ built,
        Built.run len wid before = some built → built.Indexed := by
      intro before
      induction before using List.reverseRecOn with
      | nil =>
          intro _ built reached
          obtain rfl := Option.some.inj reached
          exact Built.indexed_create len wid
      | append_singleton before event ih =>
          intro isPrefix after reached
          have reachedAfter := reached
          rw [Built.run_concat, Option.bind_eq_some_iff] at reached
          obtain ⟨built, reachedBefore, stepped⟩ := reached
          have indexed := ih ((List.prefix_append before [event]).trans isPrefix) built
            reachedBefore
          exact indexed.step event
            (indexed.apart_of_indexExact event stepped
              (exact _ isPrefix after reachedAfter)) stepped
    intro before event isPrefix built after reached stepped
    refine (indexed before ((List.prefix_append before [event]).trans isPrefix) built
      reached).apart_of_indexExact event stepped (exact _ isPrefix after ?_)
    rw [Built.run_concat, reached]
    exact stepped
  · intro apart before isPrefix built reached
    suffices indexed : built.Indexed from indexed.indexExact
    induction before using List.reverseRecOn generalizing built with
    | nil =>
        obtain rfl := Option.some.inj reached
        exact Built.indexed_create len wid
    | append_singleton before event ih =>
        rw [Built.run_concat, Option.bind_eq_some_iff] at reached
        obtain ⟨before', reachedBefore, stepped⟩ := reached
        exact (ih ((List.prefix_append before [event]).trans isPrefix) before' reachedBefore).step
          event (apart before event isPrefix before' built reachedBefore stepped) stepped

/-- An entity that is added at another place leaves its id in its old cell. -/
theorem not_indexExact_readded :
    ∃ built, Built.run 10 10 [.addEntity 1 (0, 0, 0, 0), .addEntity 1 (5, 5, 5, 5)] = some built ∧
      ¬ built.IndexExact := by
  refine ⟨_, rfl, fun exact => ?_⟩
  obtain ⟨entity, live, inside⟩ := (exact.cell ⟨0, 0⟩ 1 rfl).mp ⟨rfl, by decide⟩
  have found := KeySorted.find_eq_some.mpr ⟨live, rfl⟩
  obtain rfl : (⟨1, ⟨5, 5⟩, ⟨5, 5⟩⟩ : Entity) = entity :=
    congrArg Prod.snd (Option.some.inj (Eq.trans rfl found))
  exact absurd inside (by decide)

end Index

end Slg

end LuaServer
