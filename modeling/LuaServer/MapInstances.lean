import LuaServer.AoiExactness
import LuaServer.RunConditions

/-!
# A map and its core

The map of the script keeps its entities in a table of objects and adds them to a
core as well, which answers the area queries.  The script never deletes from the
core, the core ignores an id that it already has, and it looks for an obstacle at a
position that is never set.  The two hold the same entities as long as none of this
matters.
-/

namespace LuaServer

namespace SkillMap

open GridCell MachineIntegers RunConditions SkillWorld

/-- `struct Entity`. -/
structure Entity where
  id_ : Int
  x_ : ℚ
  y_ : ℚ
  dx_ : Int
  dy_ : Int
  atkType_ : Int
  deriving DecidableEq

/-- `struct Search`. -/
structure Search where
  id_ : Int
  num_ : Int
  atkType_ : Int
  rangeTp_ : Int
  p1_ : ℚ
  p2_ : ℚ

def searchMax_ : Nat := 10
def cellLen_ : Int := 1

/-- What the loops of `Map::Map` push. -/
def offsets : List Pos :=
  (List.range (2 * searchMax_ + 1)).flatMap fun x =>
    (List.range (2 * searchMax_ + 1)).map fun y => ⟨(x : Int) - searchMax_, (y : Int) - searchMax_⟩

/-- `search_order_` behind `sort`, which may leave offsets of one length in any order. -/
structure SearchOrder where
  elements : List Pos
  perm : elements.Perm offsets
  sorted : elements.Pairwise fun lhs rhs =>
    lhs.x * lhs.x + lhs.y * lhs.y ≤ rhs.x * rhs.x + rhs.y * rhs.y

/-- `search_order_` behind a stable `sort`. -/
instance : Inhabited SearchOrder where
  default :=
    { elements := offsets.mergeSort fun lhs rhs =>
        decide (lhs.x * lhs.x + lhs.y * lhs.y ≤ rhs.x * rhs.x + rhs.y * rhs.y)
      perm := List.mergeSort_perm ..
      sorted := by
        have sorted := @List.pairwise_mergeSort Pos
          (fun lhs rhs => decide (lhs.x * lhs.x + lhs.y * lhs.y ≤ rhs.x * rhs.x + rhs.y * rhs.y))
          (by simp only [decide_eq_true_eq]; exact fun _ _ _ => le_trans)
          (by simp only [Bool.or_eq_true, decide_eq_true_eq]; exact fun _ _ => le_total _ _) offsets
        exact sorted.imp fun le => of_decide_eq_true le }

/-- The tables of `struct Map`. -/
structure Core where
  len_ : Int
  wid_ : Int
  searchOrder_ : SearchOrder
  entities_ : Int → Option Entity
  cellEntities_ : CellIndex Int Pos
  obstacle_ : Finset Pos

/-- The cell of an entity. -/
def Entity.cell (entity : Entity) : Pos :=
  ⟨truncate (entity.x_ / cellLen_), truncate (entity.y_ / cellLen_)⟩

namespace Core

/-- `create` of `lmap.cc` and `Map::Map`. -/
def create (len wid : Int) (order : SearchOrder) : Core :=
  ⟨toInt16 len, toInt16 wid, order, fun _ => none, fun _ => none, ∅⟩

/-- `Map::in_area`. -/
def inArea (core : Core) (p : Pos) : Bool :=
  if p.x < 0 then false
  else if p.x > core.len_ - 1 then false
  else if p.y < 0 then false
  else if p.y > core.wid_ - 1 then false
  else true

/-- `Map::impassable`. -/
def impassable (core : Core) (p : Pos) : Bool :=
  if !core.inArea p then true else decide (p ∈ core.obstacle_)

/-- `Map::add_obstacle`. -/
def addObstacle (core : Core) (p : Pos) : Core :=
  if !core.inArea p then core else { core with obstacle_ := insert p core.obstacle_ }

/-- `Map::del_obstacle`. -/
def delObstacle (core : Core) (p : Pos) : Core :=
  { core with obstacle_ := core.obstacle_.erase p }

/-- `Map::add_cell`. -/
def addCell (core : Core) (entity : Entity) : Core :=
  { core with cellEntities_ := core.cellEntities_.insertAt entity.cell entity.id_ }

/-- `Map::add_entity`.  Its local variable `p` is not set, and holds what the stack
holds there. -/
def addEntity (core : Core) (entity : Entity) (p : Pos) : Core :=
  match core.entities_ entity.id_ with
  | some _ => core
  | none =>
      if core.impassable p then core
      else addCell
        { core with entities_ := Function.update core.entities_ entity.id_ (some entity) } entity

/-- The cells that `Map::get_aoi` calls back with. -/
def getAoi (core : Core) (cell : Pos) : List Pos :=
  (core.searchOrder_.elements.map fun ps =>
    ⟨toInt16 (cell.x + ps.x), toInt16 (cell.y + ps.y)⟩).filter
      fun cell => (core.cellEntities_ cell).isSome

/-- `get_aoi` of `lmap.cc`.  The ids of a cell come in the order in which its table
lists them. -/
def lgetAoi (core : Core) (listed : Pos → List Int) (id : Int) : Option (List Int) :=
  (core.entities_ id).map fun entity => (core.getAoi entity.cell).flatMap listed

/-- The loop of the callback of `Map::aoi_search`. -/
def searchIds (core : Core) (rangeFunc : Entity → Entity → Bool) (info : Search)
    (entity : Entity) (ret : List Int) : List Int → List Int
  | [] => ret
  | oid :: ids =>
      match core.entities_ oid with
      | none => searchIds core rangeFunc info entity ret ids
      | some oentity =>
          if info.atkType_ = 0 ∧ entity.atkType_ = oentity.atkType_ then
            searchIds core rangeFunc info entity ret ids
          else if info.atkType_ = 1 ∧ entity.atkType_ ≠ oentity.atkType_ then
            searchIds core rangeFunc info entity ret ids
          else if !rangeFunc entity oentity then
            searchIds core rangeFunc info entity ret ids
          else if ((ret ++ [oid]).length : Int) ≥ toSizeT info.num_ then ret ++ [oid]
          else searchIds core rangeFunc info entity (ret ++ [oid]) ids

/-- `Map::aoi_search`, whose ranges are tested with floating point numbers. -/
def aoiSearch (core : Core) (listed : Pos → List Int)
    (rangeFunc : Search → Entity → Entity → Bool) (info : Search) : List Int :=
  match core.entities_ info.id_ with
  | none => []
  | some entity =>
      (core.getAoi entity.cell).foldl (fun ret cell =>
        if (ret.length : Int) ≥ toSizeT info.num_ then ret
        else core.searchIds (rangeFunc info) info entity ret (listed cell)) []

end Core

/-- The fields of an object that the map reads. -/
structure Obj where
  id : Option Int
  x : ℚ
  y : ℚ
  dx : Int
  dy : Int
  atkType : Int

/-- The field `data` of the input and of the map. -/
structure Data where
  idx : Int
  entities : Int → Option Obj

/-- A map of `create_instance`. -/
structure Instance where
  data : Data
  core : Core

namespace Instance

/-- `create_instance`. -/
def createInstance (data : Data) (len wid : Int) (order : SearchOrder) : Instance :=
  ⟨data, .create len wid order⟩

/-- `genid`, as the next value of `data.idx`. -/
def genid (data : Data) : Int :=
  (if data.idx > 0xfffffff then 0 else data.idx) + 1

/-- The id under which `ins.add_entity` adds an object. -/
def idOf (ins : Instance) (obj : Obj) : Int :=
  obj.id.getD (genid ins.data)

/-- `add_entity` of `lmap.cc`.  The coordinates become single precision numbers. -/
def entityOf (single : ℚ → ℚ) (id : Int) (obj : Obj) : Entity :=
  ⟨id, single obj.x, single obj.y, toInt16 obj.dx, toInt16 obj.dy, toInt8 obj.atkType⟩

/-- `ins.add_entity`, whose callback changes nothing. -/
def addEntity (single : ℚ → ℚ) (ins : Instance) (obj : Obj) (p : Pos) : Instance :=
  let id := ins.idOf obj
  let idx := if obj.id.isSome then ins.data.idx else genid ins.data
  ⟨⟨idx, Function.update ins.data.entities id (some { obj with id := some id })⟩,
    ins.core.addEntity (entityOf single id obj) p⟩

/-- `ins.del_entity`, whose callback changes nothing. -/
def delEntity (ins : Instance) (id : Int) : Instance :=
  { ins with data := { ins.data with entities := Function.update ins.data.entities id none } }

end Instance

/-- The calls of the map, with what the stack holds for the core. -/
inductive Event where
  | addEntity (obj : Obj) (p : Pos)
  | delEntity (id : Int)
  | addObstacle (p : Pos)
  | delObstacle (p : Pos)

namespace Instance

def step (single : ℚ → ℚ) (ins : Instance) : Event → Instance
  | .addEntity obj p => ins.addEntity single obj p
  | .delEntity id => ins.delEntity id
  | .addObstacle p => { ins with core := ins.core.addObstacle p }
  | .delObstacle p => { ins with core := ins.core.delObstacle p }

def run (single : ℚ → ℚ) (ins : Instance) (history : List Event) : Instance :=
  history.foldl (step single) ins

/-- The map and its core hold the same entities. -/
structure Agrees (single : ℚ → ℚ) (ins : Instance) : Prop where
  ids : ∀ id, (ins.data.entities id).isSome = (ins.core.entities_ id).isSome
  positions : ∀ id obj entity, ins.data.entities id = some obj →
    ins.core.entities_ id = some entity → entity.x_ = single obj.x ∧ entity.y_ = single obj.y
  getAoi : ∀ listed, Lists ins.core.cellEntities_ listed → ∀ id ids,
    ins.core.lgetAoi listed id = some ids → ∀ oid ∈ ids, (ins.data.entities oid).isSome
  aoiSearch : ∀ listed, Lists ins.core.cellEntities_ listed → ∀ rangeFunc info,
    ∀ oid ∈ ins.core.aoiSearch listed rangeFunc info, (ins.data.entities oid).isSome

/-- A call whose effect on the core is the same as on the table. -/
def Respects (single : ℚ → ℚ) (ins : Instance) : Event → Prop
  | .addEntity obj p =>
      match ins.core.entities_ (ins.idOf obj) with
      | none => ins.core.impassable p = false
      | some entity => entity.x_ = single obj.x ∧ entity.y_ = single obj.y
  | .delEntity id => ins.core.entities_ id = none
  | _ => True

end Instance

/-- Every entity of the core lies in its cell alone. -/
structure Core.Sound (core : Core) : Prop where
  places : core.cellEntities_.Places fun id => (core.entities_ id).map Entity.cell
  ids : ∀ id entity, core.entities_ id = some entity → entity.id_ = id

namespace Core

variable {core : Core}

theorem sound_create (len wid : Int) (order : SearchOrder) : (create len wid order).Sound :=
  ⟨CellIndex.places_empty, fun _ _ => nofun⟩

theorem addEntity_of_some {entity old : Entity} {p : Pos}
    (found : core.entities_ entity.id_ = some old) : core.addEntity entity p = core := by
  simp [addEntity, found]

theorem addEntity_of_impassable {entity : Entity} {p : Pos}
    (blocked : core.impassable p = true) : core.addEntity entity p = core := by
  unfold addEntity
  split
  · rfl
  · rw [if_pos blocked]

theorem addEntity_of_none {entity : Entity} {p : Pos}
    (found : core.entities_ entity.id_ = none) (free : core.impassable p = false) :
    core.addEntity entity p = addCell
      { core with
        entities_ := Function.update core.entities_ entity.id_ (some entity) } entity := by
  simp [addEntity, found, free]

theorem addEntity_others (core : Core) (entity : Entity) (p : Pos) {other : Int}
    (differ : other ≠ entity.id_) :
    (core.addEntity entity p).entities_ other = core.entities_ other := by
  cases found : core.entities_ entity.id_ with
  | some old => rw [addEntity_of_some found]
  | none =>
      cases blocked : core.impassable p with
      | true => rw [addEntity_of_impassable blocked]
      | false =>
          rw [addEntity_of_none found blocked]
          exact Function.update_of_ne differ ..

theorem Sound.addEntity (sound : core.Sound) (entity : Entity) (p : Pos) :
    (core.addEntity entity p).Sound := by
  unfold Core.addEntity
  cases found : core.entities_ entity.id_ with
  | some old => exact sound
  | none =>
      dsimp only
      split
      · exact sound
      · refine ⟨?_, fun id other isOther => ?_⟩
        · have placed := @CellIndex.Places.insertAt _ _ _ _ _ _ entity.id_ sound.places entity.cell
            (by simp [found])
          have same : (fun id => (Function.update core.entities_ entity.id_ (some entity) id).map
              Entity.cell) = Function.update (fun id => (core.entities_ id).map Entity.cell)
                entity.id_ (some entity.cell) := by
            funext id
            by_cases isId : id = entity.id_
            · subst isId
              simp
            · simp [isId]
          rw [← same] at placed
          exact placed
        · simp only [addCell] at isOther
          by_cases isId : id = entity.id_
          · subst isId
            rw [Function.update_self] at isOther
            cases isOther
            rfl
          · rw [Function.update_of_ne isId] at isOther
            exact sound.ids id other isOther

theorem Sound.of_mem_listed (sound : core.Sound) {listed : Pos → List Int}
    (lists : Lists core.cellEntities_ listed) {from_ cell : Pos} {oid : Int}
    (visited : cell ∈ core.getAoi from_) (member : oid ∈ listed cell) :
    (core.entities_ oid).isSome := by
  obtain ⟨ids, found⟩ := Option.isSome_iff_exists.mp (List.mem_filter.mp visited).2
  have placed := (sound.places.holds cell oid).mp
    ⟨ids, found, ((lists cell ids found).2 oid).mp member⟩
  obtain ⟨entity, isEntity, -⟩ := Option.map_eq_some_iff.mp placed
  rw [isEntity]
  rfl

theorem of_mem_searchIds {rangeFunc : Entity → Entity → Bool} {info : Search} {entity : Entity}
    {ret ids : List Int} {oid : Int}
    (member : oid ∈ core.searchIds rangeFunc info entity ret ids) :
    oid ∈ ret ∨ (core.entities_ oid).isSome := by
  induction ids generalizing ret with
  | nil => exact Or.inl member
  | cons next ids ih =>
      rw [searchIds] at member
      have taken : oid ∈ ret ++ [next] → ∀ oentity, core.entities_ next = some oentity →
          oid ∈ ret ∨ (core.entities_ oid).isSome := by
        intro inTaken oentity isNext
        rcases List.mem_append.mp inTaken with old | isOid
        · exact Or.inl old
        · rw [List.mem_singleton.mp isOid, isNext]
          exact Or.inr rfl
      cases isNext : core.entities_ next with
      | none =>
          rw [isNext] at member
          exact ih member
      | some oentity =>
          rw [isNext] at member
          dsimp only at member
          split_ifs at member
          · exact ih member
          · exact ih member
          · exact ih member
          · exact taken member oentity isNext
          · rcases ih member with inTaken | live
            · exact taken inTaken oentity isNext
            · exact Or.inr live

theorem of_mem_aoiSearch {listed : Pos → List Int}
    {rangeFunc : Search → Entity → Entity → Bool} {info : Search} {oid : Int}
    (member : oid ∈ core.aoiSearch listed rangeFunc info) : (core.entities_ oid).isSome := by
  unfold aoiSearch at member
  split at member
  · exact absurd member List.not_mem_nil
  next entity isEntity =>
    refine List.foldlRecOn (motive := fun ret => ∀ oid ∈ ret, (core.entities_ oid).isSome)
      (core.getAoi entity.cell) _ (fun _ absurdity => absurd absurdity List.not_mem_nil) ?_ oid
      member
    intro ret live cell visited oid member
    split at member
    · exact live oid member
    · rcases of_mem_searchIds member with old | found
      · exact live oid old
      · exact found

end Core

namespace Instance

variable {single : ℚ → ℚ} {ins : Instance}

/-- An object of the table and an entity of the core under one id. -/
def Paired (single : ℚ → ℚ) : Option Obj → Option Entity → Prop
  | none, none => True
  | some obj, some entity => entity.x_ = single obj.x ∧ entity.y_ = single obj.y
  | _, _ => False

/-- The area queries see the entities of the core. -/
theorem agrees_iff (sound : ins.core.Sound) : ins.Agrees single ↔
    ∀ id, Paired single (ins.data.entities id) (ins.core.entities_ id) := by
  constructor
  · intro agrees id
    have sameIds := agrees.ids id
    cases isObj : ins.data.entities id with
    | none =>
        rw [isObj] at sameIds
        rw [Option.isSome_eq_false_iff.mp sameIds.symm |> Option.isNone_iff_eq_none.mp]
        trivial
    | some obj =>
        rw [isObj] at sameIds
        obtain ⟨entity, isEntity⟩ := Option.isSome_iff_exists.mp sameIds.symm
        rw [isEntity]
        exact agrees.positions id obj entity isObj isEntity
  · intro paired
    have ids : ∀ id, (ins.data.entities id).isSome = (ins.core.entities_ id).isSome := by
      intro id
      have pair := paired id
      cases isObj : ins.data.entities id <;> cases isEntity : ins.core.entities_ id <;>
        simp only [isObj, isEntity, Paired] at pair <;> rfl
    refine ⟨ids, fun id obj entity isObj isEntity => ?_, ?_, ?_⟩
    · have pair := paired id
      rw [isObj, isEntity] at pair
      exact pair
    · intro listed lists id found isFound oid member
      obtain ⟨entity, -, rfl⟩ := Option.map_eq_some_iff.mp isFound
      obtain ⟨cell, visited, inCell⟩ := List.mem_flatMap.mp member
      rw [ids]
      exact sound.of_mem_listed lists visited inCell
    · intro listed _ rangeFunc info oid member
      rw [ids]
      exact Core.of_mem_aoiSearch member

theorem paired_update {objs : Int → Option Obj} {before after : Int → Option Entity} {id : Int}
    {obj : Option Obj} (paired : ∀ other, Paired single (objs other) (before other))
    (others : ∀ other, other ≠ id → after other = before other) :
    (∀ other, Paired single (Function.update objs id obj other) (after other)) ↔
      Paired single obj (after id) := by
  constructor
  · intro all
    have here := all id
    rwa [Function.update_self] at here
  · intro here other
    by_cases isId : other = id
    · subst isId
      rwa [Function.update_self]
    · rw [Function.update_of_ne isId, others other isId]
      exact paired other

theorem sound_step (sound : ins.core.Sound) (event : Event) :
    (ins.step single event).core.Sound := by
  cases event with
  | addEntity obj p => exact sound.addEntity _ p
  | delEntity id => exact sound
  | addObstacle p =>
      change (ins.core.addObstacle p).Sound
      unfold Core.addObstacle
      split
      · exact sound
      · exact ⟨sound.places, sound.ids⟩
  | delObstacle p => exact ⟨sound.places, sound.ids⟩

theorem sound_run (sound : ins.core.Sound) (history : List Event) :
    (ins.run single history).core.Sound := by
  induction history generalizing ins with
  | nil => exact sound
  | cons event history ih => exact ih (sound_step sound event)

/-- One call keeps the map and its core together exactly when it respects them. -/
theorem agrees_step (sound : ins.core.Sound) (agrees : ins.Agrees single) (event : Event) :
    (ins.step single event).Agrees single ↔ ins.Respects single event := by
  rw [agrees_iff (sound_step sound event)]
  rw [agrees_iff sound] at agrees
  cases event with
  | addEntity obj p =>
      have others : ∀ other, other ≠ ins.idOf obj →
          (ins.core.addEntity (entityOf single (ins.idOf obj) obj) p).entities_ other =
            ins.core.entities_ other :=
        fun other differ => ins.core.addEntity_others (entityOf single (ins.idOf obj) obj) p differ
      refine (paired_update agrees others).trans ?_
      cases found : ins.core.entities_ (ins.idOf obj) with
      | some entity =>
          rw [Core.addEntity_of_some (show ins.core.entities_
            (entityOf single (ins.idOf obj) obj).id_ = some entity from found), found]
          simp only [Paired, Respects, found]
      | none =>
          have missing : ins.core.entities_ (entityOf single (ins.idOf obj) obj).id_ = none := found
          cases blocked : ins.core.impassable p with
          | true =>
              rw [Core.addEntity_of_impassable blocked, found]
              simp [Paired, Respects, found, blocked]
          | false =>
              rw [Core.addEntity_of_none missing blocked]
              simp [Paired, Respects, found, blocked, Core.addCell, entityOf]
  | delEntity id =>
      have others : ∀ other, other ≠ id → ins.core.entities_ other = ins.core.entities_ other :=
        fun _ _ => rfl
      refine (paired_update agrees others).trans ?_
      change Paired single none (ins.core.entities_ id) ↔ ins.core.entities_ id = none
      cases ins.core.entities_ id with
      | none => exact iff_of_true trivial rfl
      | some entity => exact iff_of_false (fun absurdity => absurdity) (Option.some_ne_none entity)
  | addObstacle p =>
      have same : (ins.core.addObstacle p).entities_ = ins.core.entities_ := by
        unfold Core.addObstacle
        split <;> rfl
      refine iff_of_true (fun other => ?_) trivial
      change Paired single (ins.data.entities other) ((ins.core.addObstacle p).entities_ other)
      rw [same]
      exact agrees other
  | delObstacle p => exact iff_of_true agrees trivial

/-- The map and its core hold the same entities after every call exactly when the map
is created without entities and every call respects the core. -/
theorem agrees_iff_respects (single : ℚ → ℚ) (data : Data) (len wid : Int) (order : SearchOrder)
    (history : List Event) :
    (∀ before after, history = before ++ after →
        ((createInstance data len wid order).run single before).Agrees single) ↔
      (∀ id, data.entities id = none) ∧ ∀ before event after, history = before ++ event :: after →
        ((createInstance data len wid order).run single before).Respects single event := by
  have sound : ∀ before, ((createInstance data len wid order).run single before).core.Sound :=
    fun before => sound_run (Core.sound_create len wid order) before
  have created : (createInstance data len wid order).Agrees single ↔
      ∀ id, data.entities id = none := by
    refine (agrees_iff (Core.sound_create len wid order)).trans (forall_congr' fun id => ?_)
    change Paired single (data.entities id) none ↔ data.entities id = none
    cases data.entities id with
    | none => exact iff_of_true trivial rfl
    | some obj => exact iff_of_false (fun absurdity => absurdity) (Option.some_ne_none obj)
  have runConcat : ∀ before event, (createInstance data len wid order).run single
      (before ++ [event]) = ((createInstance data len wid order).run single before).step single
        event := fun before event => List.foldl_concat ..
  have step : ∀ before event,
    ((createInstance data len wid order).run single before).Agrees single →
      (((createInstance data len wid order).run single (before ++ [event])).Agrees single ↔
        ((createInstance data len wid order).run single before).Respects single event) := by
    intro before event agrees
    rw [runConcat]
    exact agrees_step (sound before) agrees event
  have rule : (∀ id, data.entities id = none) →
      ((∀ before after, history = before ++ after →
        ((createInstance data len wid order).run single before).Agrees single) ↔
        ∀ before event after, history = before ++ event :: after →
          ((createInstance data len wid order).run single before).Respects single event) :=
    fun empty => forall_good_iff _ (created.mpr empty)
      (fun _ agrees => agrees) (fun before event agrees _ => (step before event agrees).mpr)
      (fun before event agrees _ => (step before event agrees).mp) fun _ _ => trivial
  constructor
  · intro agrees
    have empty := created.mp (agrees [] history rfl)
    exact ⟨empty, (rule empty).mp agrees⟩
  · rintro ⟨empty, respects⟩
    exact (rule empty).mpr respects

/-- A deleted entity stays in the core. -/
theorem not_agrees_deleted :
    ¬ ((createInstance ⟨0, fun _ => none⟩ 8 8 default).run (fun x => x)
      [.addEntity ⟨none, 1, 1, 0, 0, 0⟩ ⟨0, 0⟩, .delEntity 1]).Agrees fun x => x := by
  intro agrees
  exact Bool.false_ne_true (agrees.ids 1)

end Instance

end SkillMap

end LuaServer
