import LuaServer.MapWindows

/-!
# Searching the targets of a skill

`aoi_search` walks over the cells around the caster from the nearest to the farthest and
takes what qualifies until it has enough.  The index of the cells is exact after every
run, so this is the beginning of the list of all entities that qualify, sorted by the
distance of their cells.
-/

namespace LuaServer

namespace SkillMap

open GridCell MachineIntegers SkillWorld

namespace Core

/-- `Map::del_cell`. -/
def delCell (core : Core) (entity : Entity) : Core :=
  { core with cellEntities_ := core.cellEntities_.eraseAt entity.cell entity.id_ }

/-- `Map::update_pos`. -/
def updatePos (core : Core) (id : Int) (x y : ℚ) (dx dy : Int) : Core :=
  match core.entities_ id with
  | none => core
  | some entity =>
      let moved := { entity with x_ := x, y_ := y, dx_ := dx, dy_ := dy }
      let core := core.delCell entity
      addCell { core with entities_ := Function.update core.entities_ id (some moved) } moved

/-- `Map::del_entity`. -/
def delEntity (core : Core) (id : Int) : Core :=
  match core.entities_ id with
  | none => core
  | some entity =>
      let core := core.delCell entity
      { core with entities_ := Function.update core.entities_ id none }

end Core

/-- The calls that change a map, with what the stack holds for `add_entity`. -/
inductive Change where
  | addEntity (entity : Entity) (p : Pos)
  | updatePos (id : Int) (x y : ℚ) (dx dy : Int)
  | delEntity (id : Int)
  | addObstacle (p : Pos)
  | delObstacle (p : Pos)

namespace Core

def step (core : Core) : Change → Core
  | .addEntity entity p => core.addEntity entity p
  | .updatePos id x y dx dy => core.updatePos id x y dx dy
  | .delEntity id => core.delEntity id
  | .addObstacle p => core.addObstacle p
  | .delObstacle p => core.delObstacle p

def run (core : Core) (changes : List Change) : Core :=
  changes.foldl step core

/-- A position that is rounded to a cell of the map. -/
def InMap (core : Core) (x y : ℚ) : Prop :=
  (-1 < x ∧ x < core.len_) ∧ -1 < y ∧ y < core.wid_

/-- The positions of a change are in the map. -/
def Allows (core : Core) : Change → Prop
  | .addEntity entity _ => core.InMap entity.x_ entity.y_
  | .updatePos _ x y _ _ => core.InMap x y
  | _ => True

/-- The index is exact, and all entities are in the map. -/
structure Kept (core : Core) : Prop where
  sound : core.Sound
  size : core.len_ ≤ 32767 ∧ core.wid_ ≤ 32767
  inMap : ∀ id entity, core.entities_ id = some entity → core.InMap entity.x_ entity.y_

/-- The squared distance of two cells. -/
def distance (cell other : Pos) : Int :=
  (other.x - cell.x) * (other.x - cell.x) + (other.y - cell.y) * (other.y - cell.y)

/-- The camps that a search wants. -/
def WantsCamp (info : Search) (entity oentity : Entity) : Prop :=
  ¬ (info.atkType_ = 0 ∧ entity.atkType_ = oentity.atkType_) ∧
    ¬ (info.atkType_ = 1 ∧ entity.atkType_ ≠ oentity.atkType_)

instance (info : Search) (entity oentity : Entity) : Decidable (WantsCamp info entity oentity) :=
  inferInstanceAs (Decidable (_ ∧ _))

/-- The entities that live, and the cells that are obstacles. -/
structure Given where
  entities : Int → Option Entity
  obstacles : Finset Pos

/-- A cell of a map of this size. -/
def IsCell (len wid : Int) (p : Pos) : Prop :=
  (0 ≤ p.x ∧ p.x < len) ∧ 0 ≤ p.y ∧ p.y < wid

instance (len wid : Int) (p : Pos) : Decidable (IsCell len wid p) :=
  inferInstanceAs (Decidable (_ ∧ _))

/-- What a call gives to the entities, or takes from them.  An id is added once, and only
when the position that is never set happens to be a free cell. -/
def givenStep (len wid : Int) (given : Given) : Change → Given
  | .addEntity entity p =>
      if given.entities entity.id_ = none ∧ IsCell len wid p ∧ p ∉ given.obstacles then
        { given with entities := Function.update given.entities entity.id_ (some entity) }
      else given
  | .updatePos id x y dx dy =>
      { given with
        entities := Function.update given.entities id
          ((given.entities id).map fun entity =>
            { entity with x_ := x, y_ := y, dx_ := dx, dy_ := dy }) }
  | .delEntity id => { given with entities := Function.update given.entities id none }
  | .addObstacle p =>
      if IsCell len wid p then { given with obstacles := insert p given.obstacles } else given
  | .delObstacle p => { given with obstacles := given.obstacles.erase p }

/-- The entities that a run leaves, as they were given last. -/
def givenAfter (len wid : Int) (changes : List Change) : Given :=
  changes.foldl (givenStep len wid) ⟨fun _ => none, ∅⟩

/-- The tables of a map are those that it has been given. -/
structure Follows (core : Core) (given : Given) : Prop where
  entities : core.entities_ = given.entities
  obstacles : core.obstacle_ = given.obstacles

/-- A living entity that a search of `entity` may return. -/
def Qualifies (entities : Int → Option Entity) (rangeFunc : Entity → Entity → Bool)
    (info : Search) (entity : Entity) (oid : Int) (oentity : Entity) : Prop :=
  entities oid = some oentity ∧ InWindow entity.cell oentity.cell ∧
    WantsCamp info entity oentity ∧ rangeFunc entity oentity = true

/-- What a search returns: at most as many as it asks for, all of them if they are not
too many, and none that is farther away than one it leaves out. -/
structure SearchExact (entities : Int → Option Entity) (rangeFunc : Entity → Entity → Bool)
    (info : Search) (entity : Entity) (ret : List Int) : Prop where
  once : ret.Nodup
  few : (ret.length : Int) ≤ info.num_
  qualify : ∀ oid ∈ ret, ∃ oentity, Qualifies entities rangeFunc info entity oid oentity
  complete : (ret.length : Int) < info.num_ →
    ∀ oid oentity, Qualifies entities rangeFunc info entity oid oentity → oid ∈ ret
  nearest : ∀ oid oentity, Qualifies entities rangeFunc info entity oid oentity → oid ∉ ret →
    ∀ other ∈ ret, ∀ otherEntity, entities other = some otherEntity →
      distance entity.cell otherEntity.cell ≤ distance entity.cell oentity.cell

section Runs

variable {core : Core}

theorem sound_update {place : Int → Option Pos} {id : Int} {index : CellIndex Int Pos}
    (sound : core.Sound) (found : Option Entity) (places : index.Places place)
    (isPlace : place = Function.update (fun id => (core.entities_ id).map Entity.cell) id
      (found.map Entity.cell)) (isId : ∀ entity, found = some entity → entity.id_ = id) :
    Sound { core with
      cellEntities_ := index, entities_ := Function.update core.entities_ id found } := by
  constructor
  · rw [isPlace] at places
    have same : (fun other => (Function.update core.entities_ id found other).map Entity.cell) =
        Function.update (fun id => (core.entities_ id).map Entity.cell) id
          (found.map Entity.cell) := by
      funext other
      by_cases isOther : other = id
      · subst isOther
        rw [Function.update_self, Function.update_self]
      · rw [Function.update_of_ne isOther, Function.update_of_ne isOther]
    rw [← same] at places
    exact places
  · intro other entity isEntity
    change Function.update core.entities_ id found other = some entity at isEntity
    by_cases isOther : other = id
    · subst isOther
      rw [Function.update_self] at isEntity
      exact isId entity isEntity
    · rw [Function.update_of_ne isOther] at isEntity
      exact sound.ids other entity isEntity

theorem Sound.updatePos (sound : core.Sound) (id : Int) (x y : ℚ) (dx dy : Int) :
    (core.updatePos id x y dx dy).Sound := by
  cases isEntity : core.entities_ id with
  | none =>
      simp only [Core.updatePos, isEntity]
      exact sound
  | some entity =>
      obtain rfl := sound.ids id entity isEntity
      have here : (core.entities_ entity.id_).map Entity.cell = some entity.cell := by
        rw [isEntity]
        rfl
      simp only [Core.updatePos, isEntity, delCell, addCell]
      -- The entity leaves its old cell before it enters the new one.
      have left := sound.places.eraseAt here
      have entered := @CellIndex.Places.insertAt _ _ _ _ _ _ entity.id_ left
        (Entity.cell { entity with x_ := x, y_ := y, dx_ := dx, dy_ := dy })
        (Function.update_self ..)
      rw [Function.update_idem] at entered
      refine sound_update sound (some { entity with x_ := x, y_ := y, dx_ := dx, dy_ := dy })
        entered rfl fun moved isMoved => ?_
      cases isMoved
      rfl

theorem Sound.delEntity (sound : core.Sound) (id : Int) : (core.delEntity id).Sound := by
  cases isEntity : core.entities_ id with
  | none =>
      simp only [Core.delEntity, isEntity]
      exact sound
  | some entity =>
      have here : (core.entities_ id).map Entity.cell = some entity.cell := by
        rw [isEntity]
        rfl
      simp only [Core.delEntity, isEntity, delCell, sound.ids id entity isEntity]
      exact sound_update sound none (sound.places.eraseAt here) rfl
        fun moved absurdity => absurd absurdity.symm (Option.some_ne_none moved)

theorem InMap.congr {other : Core} {x y : ℚ} (len : other.len_ = core.len_)
    (wid : other.wid_ = core.wid_) : other.InMap x y ↔ core.InMap x y := by
  rw [InMap, InMap, len, wid]

theorem step_size (core : Core) (change : Change) :
    (core.step change).len_ = core.len_ ∧ (core.step change).wid_ = core.wid_ := by
  cases change with
  | addEntity entity p =>
      simp only [step, Core.addEntity]
      split
      · exact ⟨rfl, rfl⟩
      · split <;> exact ⟨rfl, rfl⟩
  | updatePos id x y dx dy =>
      simp only [step, Core.updatePos]
      split <;> exact ⟨rfl, rfl⟩
  | delEntity id =>
      simp only [step, Core.delEntity]
      split <;> exact ⟨rfl, rfl⟩
  | addObstacle p =>
      simp only [step, Core.addObstacle]
      split <;> exact ⟨rfl, rfl⟩
  | delObstacle p => exact ⟨rfl, rfl⟩

/-- Where the entities of a changed map lie: an old entity, or one at a position of the
change. -/
theorem step_entity {change : Change} {id : Int} {entity : Entity}
    (isEntity : (core.step change).entities_ id = some entity) :
    core.entities_ id = some entity ∨
      (core.Allows change → core.InMap entity.x_ entity.y_) := by
  cases change with
  | addEntity added p =>
      by_cases isAdded : id = added.id_
      · subst isAdded
        cases found : core.entities_ added.id_ with
        | some old =>
            rw [step, addEntity_of_some found, found] at isEntity
            exact Or.inl isEntity
        | none =>
            cases blocked : core.impassable p with
            | true =>
                rw [step, addEntity_of_impassable blocked, found] at isEntity
                exact absurd isEntity.symm (Option.some_ne_none entity)
            | false =>
                rw [step, addEntity_of_none found blocked] at isEntity
                cases (Function.update_self ..).symm.trans isEntity
                exact Or.inr fun allowed => allowed
      · rw [step, addEntity_others core added p isAdded] at isEntity
        exact Or.inl isEntity
  | updatePos moved x y dx dy =>
      cases found : core.entities_ moved with
      | none =>
          simp only [step, Core.updatePos, found] at isEntity
          exact Or.inl isEntity
      | some old =>
          simp only [step, Core.updatePos, found, addCell, delCell] at isEntity
          by_cases isMoved : id = moved
          · rw [isMoved, Function.update_self] at isEntity
            cases isEntity
            exact Or.inr fun allowed => allowed
          · rw [Function.update_of_ne isMoved] at isEntity
            exact Or.inl isEntity
  | delEntity deleted =>
      cases found : core.entities_ deleted with
      | none =>
          simp only [step, Core.delEntity, found] at isEntity
          exact Or.inl isEntity
      | some old =>
          simp only [step, Core.delEntity, found, delCell] at isEntity
          by_cases isDeleted : id = deleted
          · rw [isDeleted, Function.update_self] at isEntity
            exact absurd isEntity.symm (Option.some_ne_none entity)
          · rw [Function.update_of_ne isDeleted] at isEntity
            exact Or.inl isEntity
  | addObstacle p =>
      simp only [step, Core.addObstacle] at isEntity
      split at isEntity <;> exact Or.inl isEntity
  | delObstacle p => exact Or.inl isEntity

theorem impassable_eq_false_iff {p : Pos} :
    core.impassable p = false ↔ IsCell core.len_ core.wid_ p ∧ p ∉ core.obstacle_ := by
  simp only [impassable, inArea, IsCell]
  grind

/-- Each call does to the tables what it gives. -/
theorem Follows.step {given : Given} (follows : core.Follows given) (change : Change) :
    (core.step change).Follows (givenStep core.len_ core.wid_ given change) := by
  obtain ⟨entities, obstacles⟩ := follows
  cases change with
  | addEntity entity p =>
      rw [givenStep, ← entities, ← obstacles]
      cases found : core.entities_ entity.id_ with
      | some old =>
          rw [if_neg (fun added => Option.some_ne_none old added.1), Core.step,
            addEntity_of_some found]
          exact ⟨entities, obstacles⟩
      | none =>
          cases blocked : core.impassable p with
          | true =>
              have refused : ¬ (IsCell core.len_ core.wid_ p ∧ p ∉ core.obstacle_) := by
                rw [← impassable_eq_false_iff, blocked]
                decide
              rw [if_neg (fun added => refused added.2), Core.step,
                addEntity_of_impassable blocked]
              exact ⟨entities, obstacles⟩
          | false =>
              rw [if_pos ⟨rfl, impassable_eq_false_iff.mp blocked⟩, Core.step,
                addEntity_of_none found blocked]
              exact ⟨rfl, rfl⟩
  | updatePos id x y dx dy =>
      rw [givenStep, ← entities]
      cases found : core.entities_ id with
      | none =>
          have same : Function.update core.entities_ id none = core.entities_ := by
            rw [← found, Function.update_eq_self]
          simp only [Core.step, Core.updatePos, found]
          exact ⟨same.symm, obstacles⟩
      | some entity =>
          simp only [Core.step, Core.updatePos, found]
          exact ⟨rfl, obstacles⟩
  | delEntity id =>
      rw [givenStep, ← entities]
      cases found : core.entities_ id with
      | none =>
          have same : Function.update core.entities_ id none = core.entities_ := by
            rw [← found, Function.update_eq_self]
          simp only [Core.step, Core.delEntity, found]
          exact ⟨same.symm, obstacles⟩
      | some entity =>
          simp only [Core.step, Core.delEntity, found]
          exact ⟨rfl, obstacles⟩
  | addObstacle p =>
      have inArea : core.inArea p = true ↔ IsCell core.len_ core.wid_ p := by
        simp only [inArea, IsCell]
        grind
      rw [givenStep, Core.step, Core.addObstacle]
      by_cases isCell : IsCell core.len_ core.wid_ p
      · rw [if_pos isCell, inArea.mpr isCell]
        exact ⟨entities, congrArg (insert p) obstacles⟩
      · rw [if_neg isCell, Bool.eq_false_iff.mpr (mt inArea.mp isCell)]
        exact ⟨entities, obstacles⟩
  | delObstacle p => exact ⟨entities, congrArg (Finset.erase · p) obstacles⟩

theorem Follows.run {given : Given} (follows : core.Follows given) (changes : List Change) :
    (core.run changes).Follows (changes.foldl (givenStep core.len_ core.wid_) given) := by
  induction changes generalizing core given with
  | nil => exact follows
  | cons change changes ih =>
      have rest := ih (follows.step change)
      obtain ⟨len, wid⟩ := core.step_size change
      rw [len, wid] at rest
      exact rest

theorem follows_create (len wid : Int) (order : SearchOrder) (changes : List Change) :
    ((create len wid order).run changes).Follows
      (givenAfter (toInt16 len) (toInt16 wid) changes) :=
  Follows.run ⟨rfl, rfl⟩ changes

theorem Kept.step (kept : core.Kept) {change : Change} (allowed : core.Allows change) :
    (core.step change).Kept := by
  obtain ⟨len, wid⟩ := core.step_size change
  refine ⟨?_, ?_, ?_⟩
  · cases change with
    | addEntity entity p => exact kept.sound.addEntity entity p
    | updatePos id x y dx dy => exact kept.sound.updatePos id x y dx dy
    | delEntity id => exact kept.sound.delEntity id
    | addObstacle p =>
        simp only [Core.step, Core.addObstacle]
        split
        · exact kept.sound
        · exact ⟨kept.sound.places, kept.sound.ids⟩
    | delObstacle p => exact ⟨kept.sound.places, kept.sound.ids⟩
  · rw [len, wid]
    exact kept.size
  · intro id entity isEntity
    rw [InMap.congr len wid]
    rcases step_entity isEntity with old | changed
    · exact kept.inMap id entity old
    · exact changed allowed

theorem Allows.step {change next : Change} :
    (core.step change).Allows next ↔ core.Allows next := by
  obtain ⟨len, wid⟩ := core.step_size change
  cases next with
  | addEntity entity p => exact InMap.congr len wid
  | updatePos id x y dx dy => exact InMap.congr len wid
  | delEntity id => exact Iff.rfl
  | addObstacle p => exact Iff.rfl
  | delObstacle p => exact Iff.rfl

theorem Kept.run (kept : core.Kept) {changes : List Change}
    (allowed : ∀ change ∈ changes, core.Allows change) : (core.run changes).Kept := by
  induction changes generalizing core with
  | nil => exact kept
  | cons change changes ih =>
      obtain ⟨first, rest⟩ := List.forall_mem_cons.mp allowed
      exact ih (kept.step first) fun next member => Allows.step.mpr (rest next member)

theorem kept_create (len wid : Int) (order : SearchOrder) : (create len wid order).Kept := by
  have lenRange := toInt16_range len
  have widRange := toInt16_range wid
  exact ⟨sound_create len wid order, ⟨by simp only [create]; omega, by simp only [create]; omega⟩,
    fun _ entity absurdity => absurd absurdity.symm (Option.some_ne_none entity)⟩

end Runs

section Cells

variable {core : Core}

/-- A position of a map is rounded towards zero to one of its cells. -/
theorem truncate_inMap {x : ℚ} {size : Int} (small : size ≤ 32767) (lower : -1 < x)
    (upper : x < size) :
    0 ≤ truncate (x / cellLen_) ∧ truncate (x / cellLen_) ≤ 32766 := by
  have isOne : (cellLen_ : ℚ) = 1 := rfl
  rw [isOne, div_one]
  by_cases nonneg : 0 ≤ x
  · have floorLower : 0 ≤ ⌊x⌋ := Int.floor_nonneg.mpr nonneg
    have floorUpper : ⌊x⌋ < size := Int.floor_lt.mpr upper
    rw [truncate, if_pos nonneg, toInt16_of_range (by omega) (by omega)]
    omega
  · have ceilZero : ⌈x⌉ = 0 := by
      rw [Int.ceil_eq_zero_iff]
      exact ⟨lower, (not_le.mp nonneg).le⟩
    rw [truncate, if_neg nonneg, ceilZero]
    decide

theorem Kept.cell (kept : core.Kept) {id : Int} {entity : Entity}
    (isEntity : core.entities_ id = some entity) :
    (0 ≤ entity.cell.x ∧ entity.cell.x ≤ 32766) ∧ 0 ≤ entity.cell.y ∧ entity.cell.y ≤ 32766 := by
  obtain ⟨⟨left, right⟩, bottom, top⟩ := kept.inMap id entity isEntity
  exact ⟨truncate_inMap kept.size.1 left right, truncate_inMap kept.size.2 bottom top⟩

/-- Between entities of a map the 16-bit sums do not wrap around. -/
theorem Kept.reaches_iff (kept : core.Kept) {id oid : Int} {entity oentity : Entity}
    (isEntity : core.entities_ id = some entity) (isOther : core.entities_ oid = some oentity) :
    Reaches entity.cell oentity.cell ↔ InWindow entity.cell oentity.cell := by
  obtain ⟨⟨left, right⟩, bottom, top⟩ := kept.cell isEntity
  obtain ⟨⟨otherLeft, otherRight⟩, otherBottom, otherTop⟩ := kept.cell isOther
  rw [Reaches, InWindow, toInt16_of_range (by omega) (by omega),
    toInt16_of_range (by omega) (by omega)]

theorem Kept.represented (kept : core.Kept) {oid : Int} {oentity : Entity}
    (isOther : core.entities_ oid = some oentity) : Represented oentity.cell := by
  obtain ⟨⟨left, right⟩, bottom, top⟩ := kept.cell isOther
  simp only [Represented]
  omega

theorem Sound.exists_entity (sound : core.Sound) {cell : Pos}
    (occupied : (core.cellEntities_ cell).isSome) :
    ∃ oid oentity, core.entities_ oid = some oentity ∧ oentity.cell = cell := by
  obtain ⟨ids, found⟩ := Option.isSome_iff_exists.mp occupied
  have nonempty : ids.Nonempty := by
    rw [Finset.nonempty_iff_ne_empty]
    rintro rfl
    exact sound.places.notEmpty cell found
  obtain ⟨oid, member⟩ := nonempty
  obtain ⟨oentity, isOther, isCell⟩ :=
    Option.map_eq_some_iff.mp ((sound.places.holds cell oid).mp ⟨ids, found, member⟩)
  exact ⟨oid, oentity, isOther, isCell⟩

/-- The cells around an entity come with growing distance. -/
theorem Kept.getAoi_sorted (kept : core.Kept) {id : Int} {entity : Entity}
    (isEntity : core.entities_ id = some entity) :
    (core.getAoi entity.cell).Pairwise fun cell other =>
      distance entity.cell cell ≤ distance entity.cell other := by
  rw [getAoi, List.filter_map, List.pairwise_map]
  have isOffset : ∀ ps ∈ core.searchOrder_.elements.filter
      ((fun cell => (core.cellEntities_ cell).isSome) ∘ fun ps : Pos =>
        ⟨toInt16 (entity.cell.x + ps.x), toInt16 (entity.cell.y + ps.y)⟩),
      distance entity.cell ⟨toInt16 (entity.cell.x + ps.x), toInt16 (entity.cell.y + ps.y)⟩ =
        ps.x * ps.x + ps.y * ps.y := by
    intro ps member
    obtain ⟨inOrder, occupied⟩ := List.mem_filter.mp member
    simp only [Function.comp_apply] at occupied
    obtain ⟨nearX, nearY⟩ :=
      (mem_offsets ps).mp (core.searchOrder_.perm.mem_iff.mp inOrder)
    have small : ((searchMax_ : Nat) : Int) ≤ 32767 := by decide
    obtain ⟨oid, oentity, isOther, isCell⟩ := kept.sound.exists_entity occupied
    obtain ⟨⟨left, right⟩, bottom, top⟩ := kept.cell isEntity
    obtain ⟨⟨otherLeft, otherRight⟩, otherBottom, otherTop⟩ := kept.cell isOther
    have stepX := (toInt16_add_eq_iff (nearX.trans small)
      (show -32768 ≤ oentity.cell.x ∧ oentity.cell.x < 32768 by omega)).mp
        (congrArg GridCell.x isCell).symm
    have stepY := (toInt16_add_eq_iff (nearY.trans small)
      (show -32768 ≤ oentity.cell.y ∧ oentity.cell.y < 32768 by omega)).mp
        (congrArg GridCell.y isCell).symm
    rw [toInt16_of_range (by omega) (by omega)] at stepX stepY
    rw [← isCell, distance, stepX, stepY]
  refine (core.searchOrder_.sorted.filter _).imp_of_mem fun member otherMember le => ?_
  rw [isOffset _ member, isOffset _ otherMember]
  exact le

end Cells

section Searches

variable {core : Core} {rangeFunc : Entity → Entity → Bool} {info : Search} {entity : Entity}

/-- What the callback keeps of the ids of a cell. -/
def keeps (core : Core) (rangeFunc : Entity → Entity → Bool) (info : Search) (entity : Entity)
    (oid : Int) : Bool :=
  match core.entities_ oid with
  | none => false
  | some oentity => decide (WantsCamp info entity oentity) && rangeFunc entity oentity

/-- The callback appends what it keeps up to the quota. -/
theorem searchIds_eq {most : Nat} (isMost : toSizeT info.num_ = most) {ret : List Int}
    (room : ret.length < most) (ids : List Int) :
    core.searchIds rangeFunc info entity ret ids =
      (ret ++ ids.filter (core.keeps rangeFunc info entity)).take most := by
  induction ids generalizing ret with
  | nil =>
      rw [searchIds, List.filter_nil, List.append_nil, List.take_of_length_le room.le]
  | cons oid ids ih =>
      rw [searchIds]
      cases isOther : core.entities_ oid with
      | none =>
          rw [List.filter_cons_of_neg (by simp [keeps, isOther])]
          exact ih room
      | some oentity =>
          dsimp only
          split_ifs with sameCamp otherCamp range full
          · rw [List.filter_cons_of_neg (by simp [keeps, isOther, WantsCamp, sameCamp])]
            exact ih room
          · rw [List.filter_cons_of_neg (by simp [keeps, isOther, WantsCamp, otherCamp])]
            exact ih room
          · rw [List.filter_cons_of_neg (by simpa [keeps, isOther] using fun _ => range)]
            exact ih room
          all_goals
            have kept : core.keeps rangeFunc info entity oid = true := by
              simp only [keeps, isOther, Bool.and_eq_true, decide_eq_true_eq]
              exact ⟨⟨sameCamp, otherCamp⟩, by simpa using range⟩
            rw [List.filter_cons_of_pos kept, List.append_cons ret oid (ids.filter _)]
            rw [isMost, List.length_append, List.length_singleton] at full
          · have length : (ret ++ [oid]).length = most := by
              rw [List.length_append, List.length_singleton]
              omega
            rw [List.take_append_of_le_length length.ge, List.take_of_length_le length.le]
          · refine ih ?_
            rw [List.length_append, List.length_singleton]
            omega

/-- The walk over the cells appends what it keeps up to the quota. -/
theorem foldl_searchIds {most : Nat} (isMost : toSizeT info.num_ = most)
    (listed : Pos → List Int) (cells : List Pos) {ret : List Int} (upTo : ret.length ≤ most) :
    cells.foldl (fun ret cell => if (ret.length : Int) ≥ toSizeT info.num_ then ret
        else core.searchIds rangeFunc info entity ret (listed cell)) ret =
      (ret ++ (cells.flatMap listed).filter (core.keeps rangeFunc info entity)).take most := by
  induction cells generalizing ret with
  | nil =>
      rw [List.foldl_nil, List.flatMap_nil, List.filter_nil, List.append_nil,
        List.take_of_length_le upTo]
  | cons cell cells ih =>
      rw [List.foldl_cons, List.flatMap_cons, List.filter_append]
      by_cases full : (ret.length : Int) ≥ toSizeT info.num_
      · have length : ret.length = most := by
          rw [isMost] at full
          omega
        rw [if_pos full, ih upTo, List.take_append_of_le_length length.ge,
          List.take_append_of_le_length length.ge]
      · have room : ret.length < most := by
          rw [isMost] at full
          omega
        rw [if_neg full, searchIds_eq isMost room, ih (List.length_take_le most _),
          Aoi.take_take_append, List.append_assoc]

end Searches

section Exactness

variable {core : Core}

theorem keeps_iff {rangeFunc : Entity → Entity → Bool} {info : Search} {entity : Entity}
    {oid : Int} : core.keeps rangeFunc info entity oid = true ↔ ∃ oentity,
      core.entities_ oid = some oentity ∧ WantsCamp info entity oentity ∧
        rangeFunc entity oentity = true := by
  rw [keeps]
  cases core.entities_ oid with
  | none => simp
  | some oentity => simp

/-- All that qualify, from the nearest cell to the farthest. -/
def candidates (core : Core) (listed : Pos → List Int) (rangeFunc : Entity → Entity → Bool)
    (info : Search) (entity : Entity) : List Int :=
  ((core.getAoi entity.cell).flatMap listed).filter (core.keeps rangeFunc info entity)

theorem aoiSearch_eq {most : Nat} {info : Search} {entity : Entity}
    (isMost : toSizeT info.num_ = most)
    (isEntity : core.entities_ info.id_ = some entity) (listed : Pos → List Int)
    (rangeFunc : Search → Entity → Entity → Bool) :
    core.aoiSearch listed rangeFunc info =
      (core.candidates listed (rangeFunc info) info entity).take most := by
  simp only [aoiSearch, isEntity]
  exact @foldl_searchIds core (rangeFunc info) info entity most isMost listed
    (core.getAoi entity.cell) [] (Nat.zero_le most)

section Candidates

variable {listed : Pos → List Int} {rangeFunc : Entity → Entity → Bool} {info : Search}
  {id : Int} {entity : Entity}

theorem Kept.candidates_nodup (kept : core.Kept) (lists : Lists core.cellEntities_ listed) :
    (core.candidates listed rangeFunc info entity).Nodup := by
  obtain ⟨distinct, visited⟩ := core.getAoi_spec entity.cell
  exact (flatMap_listed kept.sound.places lists distinct
    fun cell member => ((visited cell).mp member).1).1.filter _

theorem Kept.mem_candidates (kept : core.Kept) (lists : Lists core.cellEntities_ listed)
    (isEntity : core.entities_ id = some entity) {oid : Int} :
    oid ∈ core.candidates listed rangeFunc info entity ↔
      ∃ oentity, Qualifies core.entities_ rangeFunc info entity oid oentity := by
  obtain ⟨distinct, visited⟩ := core.getAoi_spec entity.cell
  rw [candidates, List.mem_filter, keeps_iff, (flatMap_listed kept.sound.places lists distinct
    fun cell member => ((visited cell).mp member).1).2]
  constructor
  · rintro ⟨⟨cell, member, here⟩, oentity, isOther, wanted, range⟩
    rw [isOther] at here
    cases here
    exact ⟨oentity, isOther, (kept.reaches_iff isEntity isOther).mp
      ((visited oentity.cell).mp member).2.2, wanted, range⟩
  · rintro ⟨oentity, isOther, inWindow, wanted, range⟩
    have here : (core.entities_ oid).map Entity.cell = some oentity.cell := by
      rw [isOther]
      rfl
    exact ⟨⟨oentity.cell, (visited oentity.cell).mpr ⟨kept.sound.places.isSome here,
      kept.represented isOther, inWindow.reaches⟩, here⟩, oentity, isOther, wanted, range⟩

theorem Kept.candidates_sorted (kept : core.Kept) (lists : Lists core.cellEntities_ listed)
    (isEntity : core.entities_ id = some entity) :
    (core.candidates listed rangeFunc info entity).Pairwise fun oid other =>
      ∀ oentity otherEntity, core.entities_ oid = some oentity →
        core.entities_ other = some otherEntity →
          distance entity.cell oentity.cell ≤ distance entity.cell otherEntity.cell := by
  obtain ⟨-, visited⟩ := core.getAoi_spec entity.cell
  have inCell : ∀ cell ∈ core.getAoi entity.cell, ∀ oid ∈ listed cell, ∀ oentity,
      core.entities_ oid = some oentity → oentity.cell = cell := by
    intro cell member oid isListed oentity isOther
    obtain ⟨ids, found⟩ := Option.isSome_iff_exists.mp ((visited cell).mp member).1
    have here := (kept.sound.places.holds cell oid).mp
      ⟨ids, found, ((lists cell ids found).2 oid).mp isListed⟩
    rw [isOther] at here
    exact Option.some.inj here
  refine List.Pairwise.filter _ (List.pairwise_flatMap.mpr ⟨?_, ?_⟩)
  · intro cell member
    refine List.pairwise_of_forall_mem_list fun oid isListed other otherListed => ?_
    intro oentity otherEntity isOther isSecond
    rw [inCell cell member oid isListed oentity isOther,
      inCell cell member other otherListed otherEntity isSecond]
  · refine (kept.getAoi_sorted isEntity).imp_of_mem ?_
    intro cell second member secondMember le oid isListed other otherListed oentity otherEntity
      isOther isSecond
    rw [inCell cell member oid isListed oentity isOther,
      inCell second secondMember other otherListed otherEntity isSecond]
    exact le

end Candidates

theorem Kept.searchExact (kept : core.Kept) {listed : Pos → List Int}
    (lists : Lists core.cellEntities_ listed) (rangeFunc : Search → Entity → Entity → Bool)
    {info : Search} {entity : Entity} (isEntity : core.entities_ info.id_ = some entity)
    (quota : 0 ≤ info.num_ ∧ info.num_ < 2147483648) :
    SearchExact core.entities_ (rangeFunc info) info entity
      (core.aoiSearch listed rangeFunc info) := by
  obtain ⟨most, isMost⟩ := Int.eq_ofNat_of_zero_le quota.1
  have unsigned : toSizeT info.num_ = most := by
    rw [toSizeT, toUnsigned, isMost]
    omega
  rw [aoiSearch_eq unsigned isEntity]
  have atMost := List.length_take_le most (core.candidates listed (rangeFunc info) info entity)
  constructor
  · exact (kept.candidates_nodup lists).sublist (List.take_sublist most _)
  · rw [isMost]
    exact_mod_cast atMost
  · intro oid member
    exact (kept.mem_candidates lists isEntity).mp (List.mem_of_mem_take member)
  · intro short oid oentity qualifies
    rw [List.take_of_length_le]
    · exact (kept.mem_candidates lists isEntity).mpr ⟨oentity, qualifies⟩
    · rw [List.length_take, isMost] at short
      omega
  · intro oid oentity qualifies left other taken otherEntity isSecond
    have among := (kept.mem_candidates lists isEntity).mpr ⟨oentity, qualifies⟩
    have sorted := @Kept.candidates_sorted core listed (rangeFunc info) info info.id_ entity kept
      lists isEntity
    -- What is left out stands behind what is taken.
    rw [← List.take_append_drop most (core.candidates listed (rangeFunc info) info entity)]
      at among sorted
    have dropped := (List.mem_append.mp among).resolve_left left
    exact (List.pairwise_append.mp sorted).2.2 other taken oid dropped otherEntity oentity isSecond
      qualifies.1

end Exactness

/-- Every search after every run over positions in the map is exact: it finds the entities
that the run leaves, where they were given last. -/
theorem aoiSearch_exact (len wid : Int) (order : SearchOrder) (changes : List Change)
    (allowed : ∀ change ∈ changes, (create len wid order).Allows change)
    (listed : Pos → List Int)
    (lists : Lists ((create len wid order).run changes).cellEntities_ listed)
    (rangeFunc : Search → Entity → Entity → Bool) (info : Search) (entity : Entity)
    (isEntity : (givenAfter (toInt16 len) (toInt16 wid) changes).entities info.id_ = some entity)
    (quota : 0 ≤ info.num_ ∧ info.num_ < 2147483648) :
    SearchExact (givenAfter (toInt16 len) (toInt16 wid) changes).entities (rangeFunc info) info
      entity (((create len wid order).run changes).aoiSearch listed rangeFunc info) := by
  have follows := (follows_create len wid order changes).entities
  rw [← follows] at isEntity ⊢
  exact ((kept_create len wid order).run allowed).searchExact lists rangeFunc isEntity quota

/-- A caster with an entity near it, one that moves away and one that is deleted. -/
def targets : List Change :=
  [.addEntity ⟨1, 5, 5, 0, 1, 0⟩ ⟨0, 0⟩, .addEntity ⟨2, 6, 6, 0, 1, 1⟩ ⟨0, 0⟩,
    .addEntity ⟨3, 7, 6, 0, 1, 1⟩ ⟨0, 0⟩, .addEntity ⟨4, 6, 7, 0, 1, 1⟩ ⟨0, 0⟩,
    .updatePos 2 30 30 0 1, .delEntity 3]

theorem targets_entities (id : Int) : (givenAfter 40 40 targets).entities id =
    if id = 3 then none
    else if id = 2 then some ⟨2, 30, 30, 0, 1, 1⟩
    else if id = 4 then some ⟨4, 6, 7, 0, 1, 1⟩
    else if id = 1 then some ⟨1, 5, 5, 0, 1, 0⟩ else none := by
  have after : (givenAfter 40 40 targets).entities =
      Function.update (Function.update (Function.update (Function.update (Function.update
        (Function.update (fun _ => none) 1 (some ⟨1, 5, 5, 0, 1, 0⟩)) 2
          (some ⟨2, 6, 6, 0, 1, 1⟩)) 3 (some ⟨3, 7, 6, 0, 1, 1⟩)) 4
            (some ⟨4, 6, 7, 0, 1, 1⟩)) 2 (some ⟨2, 30, 30, 0, 1, 1⟩)) 3 none := rfl
  rw [after]
  simp only [Function.update_apply]
  split_ifs <;> rfl

/-- A search for two enemies finds the one that is left near the caster. -/
theorem aoiSearch_exact_moved :
    let core := (create 40 40 default).run targets
    core.aoiSearch (fun g => ((core.cellEntities_ g).getD ∅).toList) (fun _ _ _ => true)
      ⟨1, 2, 0, 0, 0, 0⟩ = [4] := by
  intro core
  have size : (create 40 40 default).len_ = 40 ∧ (create 40 40 default).wid_ = 40 := by decide
  have allowed : ∀ change ∈ targets, (create 40 40 default).Allows change := by
    simp only [targets, List.forall_mem_cons, List.not_mem_nil, false_imp_iff, implies_true,
      and_true, Allows, InMap, size]
    norm_num
  have exact_ := aoiSearch_exact 40 40 default targets allowed _ (lists_toList _)
    (fun _ _ _ => true) ⟨1, 2, 0, 0, 0, 0⟩ ⟨1, 5, 5, 0, 1, 0⟩ (targets_entities 1) (by decide)
  change SearchExact (givenAfter 40 40 targets).entities _ _ _ (core.aoiSearch _ _ _) at exact_
  generalize core.aoiSearch _ _ _ = ret at exact_ ⊢
  obtain ⟨once, few, qualify, complete, -⟩ := exact_
  have only : ∀ oid ∈ ret, oid = 4 := by
    intro oid member
    obtain ⟨oentity, isEntity, window, camp, -⟩ := qualify oid member
    rw [targets_entities] at isEntity
    split_ifs at isEntity with isThird isSecond isFourth isFirst
    · cases isEntity
      exact absurd window (by decide +kernel)
    · exact isFourth
    · cases isEntity
      exact absurd camp (by decide)
  have found : 4 ∈ ret := by
    refine complete ?_ 4 ⟨4, 6, 7, 0, 1, 1⟩ ⟨targets_entities 4, by decide +kernel, by decide, rfl⟩
    have few := List.toFinset_card_of_nodup once ▸
      Finset.card_le_card (show ret.toFinset ⊆ {4} from fun oid member =>
        Finset.mem_singleton.mpr (only oid (List.mem_toFinset.mp member)))
    rw [Finset.card_singleton] at few
    have one : (ret.length : Int) ≤ 1 := by exact_mod_cast few
    exact lt_of_le_of_lt one (by decide)
  have same : ret.Perm [4] := (List.perm_ext_iff_of_nodup once (List.nodup_singleton 4)).mpr
    fun oid => ⟨fun member => List.mem_singleton.mpr (only oid member),
      fun member => List.mem_singleton.mp member ▸ found⟩
  exact List.perm_singleton.mp same

end Core

end SkillMap

end LuaServer
