import LuaServer.RunConditions
import LuaServer.SlgEntities

/-!
# The blocks of the strategy world

The old world keeps one grid of blocked cells for its entities and for the blocks
that are set by hand.  The grid matches the entities as long as no cell of an entity
is unblocked by hand, and no entity is deleted while a cell of it has been blocked by
hand: the deletion unblocks every cell of the entity.
-/

namespace LuaServer

namespace Slg

open MachineIntegers RunConditions

/-- `struct Entity` of `world.h`. -/
structure WorldEntity where
  bl_ : Pos
  tr_ : Pos
  deriving DecidableEq, Repr

/-- The tables of `struct World` that `setentity` and `setblock` work on. -/
structure WorldGrid where
  len_ : Int
  wid_ : Int
  entity_ : Int → Option WorldEntity
  posEntity_ : Pos → Option Int
  block_ : Pos → Bool

namespace WorldGrid

/-- `create` of `lworld.cc` and `World::World`. -/
def create (len wid : Int) : WorldGrid :=
  ⟨toInt16 len, toInt16 wid, fun _ => none, fun _ => none, fun _ => false⟩

/-- `World::checkpos`. -/
def checkpos (world : WorldGrid) (p : Pos) : Bool :=
  p.x ≥ 0 && p.x ≤ world.len_ - 1 && p.y ≥ 0 && p.y ≤ world.wid_ - 1

/-- `World::isblock`. -/
def isblock (world : WorldGrid) (p : Pos) : Bool :=
  if !world.checkpos p then true else world.block_ p

/-- `World::haveblock`. -/
def haveblock (world : WorldGrid) (bl tr : Pos) : Option Bool :=
  anyUp (fun x => anyUp (fun y => some (world.isblock ⟨x, y⟩)) int16Rounds bl.y tr.y)
    int16Rounds bl.x tr.x

/-- `World::setblock`. -/
def setblock (world : WorldGrid) (p : Pos) (v : Bool) : WorldGrid :=
  if !world.checkpos p then world
  else { world with block_ := Function.update world.block_ p v }

/-- The body of the loops of `addentity` and `delentity`. -/
def setCell (id : Option Int) (world : WorldGrid) (p : Pos) : WorldGrid :=
  setblock { world with posEntity_ := Function.update world.posEntity_ p id } p id.isSome

/-- The world with one entry of `entity_` inserted or erased. -/
def withEntity (world : WorldGrid) (id : Int) (entity : Option WorldEntity) : WorldGrid :=
  { world with entity_ := Function.update world.entity_ id entity }

/-- `World::addentity`. -/
def addentity (world : WorldGrid) (id : Int) (entity : WorldEntity) : Option WorldGrid :=
  match world.entity_ id with
  | some _ => some world
  | none => do
      let blocked ← world.haveblock entity.bl_ entity.tr_
      if blocked then return world
      let positions ← cells entity.bl_ entity.tr_
      return positions.foldl (setCell (some id)) (world.withEntity id (some entity))

/-- `World::delentity`. -/
def delentity (world : WorldGrid) (id : Int) : Option WorldGrid :=
  match world.entity_ id with
  | none => some world
  | some entity => do
      let positions ← cells entity.bl_ entity.tr_
      return (positions.foldl (setCell none) world).withEntity id none

/-- `setentity` of `lworld.cc`. -/
def setentity (world : WorldGrid) (id : Int) (corners : Option Corners) : Option WorldGrid :=
  match corners with
  | none => world.delentity id
  | some corners => world.addentity id ⟨corners.first, corners.second⟩

end WorldGrid

/-- The calls that change the grid. -/
inductive GridEvent where
  | setentity (id : Int) (corners : Option Corners)
  | setblock (x y : Int) (v : Bool)

namespace WorldGrid

/-- One call, which ends. -/
def step (world : WorldGrid) : GridEvent → Option WorldGrid
  | .setentity id corners => world.setentity id corners
  | .setblock x y v => some (world.setblock ⟨toInt16 x, toInt16 y⟩ v)

def run (world : WorldGrid) (history : List GridEvent) : Option WorldGrid :=
  history.foldlM step world

end WorldGrid

/-- The rectangle of an added entity lies in a map of the size. -/
def GridEvent.Inside (world : WorldGrid) : GridEvent → Prop
  | .setentity _ (some corners) =>
      world.checkpos corners.first = true ∧ world.checkpos corners.second = true
  | _ => True

/-- The last call of `setblock` for the position has blocked it. -/
def Marked (history : List GridEvent) (p : Pos) : Prop :=
  ∃ before x y after, history = before ++ .setblock x y true :: after ∧
    (⟨toInt16 x, toInt16 y⟩ : Pos) = p ∧
      ∀ x' y' v, .setblock x' y' v ∈ after → (⟨toInt16 x', toInt16 y'⟩ : Pos) ≠ p

section Marks

variable {history : List GridEvent} {p : Pos}

theorem marked_iff_lasting : Marked history p ↔
    Lasting (fun event => ∃ x y, event = .setblock x y true ∧ (⟨toInt16 x, toInt16 y⟩ : Pos) = p)
      (fun event => ∃ x y v, event = .setblock x y v ∧ (⟨toInt16 x, toInt16 y⟩ : Pos) = p)
      history := by
  constructor
  · rintro ⟨before, x, y, after, split, atCell, later⟩
    refine ⟨before, _, after, split, ⟨x, y, rfl, atCell⟩, ?_⟩
    rintro _ member ⟨x', y', v, rfl, sameCell⟩
    exact later x' y' v member sameCell
  · rintro ⟨before, _, after, split, ⟨x, y, rfl, atCell⟩, later⟩
    refine ⟨before, x, y, after, split, atCell, fun x' y' v member sameCell => ?_⟩
    exact later _ member ⟨x', y', v, rfl, sameCell⟩

theorem marked_concat {event : GridEvent} :
    Marked (history ++ [event]) p ↔
      (∃ x y, event = .setblock x y true ∧ (⟨toInt16 x, toInt16 y⟩ : Pos) = p) ∨
        Marked history p ∧
          ∀ x y v, event = .setblock x y v → (⟨toInt16 x, toInt16 y⟩ : Pos) ≠ p := by
  rw [marked_iff_lasting, lasting_concat, ← marked_iff_lasting]
  refine or_congr_right (and_congr_right' ?_)
  push Not
  rfl

end Marks

namespace WorldGrid

variable {world : WorldGrid} {p : Pos}

/-- The grid matches the entities. -/
structure Matches (world : WorldGrid) : Prop where
  apart : ∀ id entity, world.entity_ id = some entity →
    ∀ other second, world.entity_ other = some second → id ≠ other →
      ∀ p, ¬ (inarea p entity.bl_ entity.tr_ ∧ inarea p second.bl_ second.tr_)
  index : ∀ p id, world.posEntity_ p = some id ↔
    ∃ entity, world.entity_ id = some entity ∧ inarea p entity.bl_ entity.tr_
  blocked : ∀ id entity, world.entity_ id = some entity →
    ∀ p, inarea p entity.bl_ entity.tr_ → world.isblock p = true

/-- What a call unblocks is neither a cell of an entity nor marked. -/
def Frees (history : List GridEvent) (old world : WorldGrid) : Prop :=
  ∀ p, old.isblock p = true → world.isblock p = false →
    (∀ id entity, world.entity_ id = some entity → ¬ inarea p entity.bl_ entity.tr_) ∧
      ¬ Marked history p

/-- What is asked of a world after a history. -/
def Exact (world : WorldGrid) (history : List GridEvent) : Prop :=
  ∃ after, world.run history = some after ∧ after.Matches ∧
    ∀ before id, history = before ++ [.setentity id none] →
      ∀ old, world.run before = some old → Frees before old after

/-- A call that leaves alone what the other kind of call has blocked. -/
def Respects (history : List GridEvent) (world : WorldGrid) : GridEvent → Prop
  | .setblock x y false => ∀ id entity, world.entity_ id = some entity →
      ¬ inarea ⟨toInt16 x, toInt16 y⟩ entity.bl_ entity.tr_
  | .setentity id none => ∀ entity, world.entity_ id = some entity →
      ∀ p, inarea p entity.bl_ entity.tr_ → ¬ Marked history p
  | _ => True

/-- The state of a world all of whose calls respect each other. -/
structure Kept (start : WorldGrid) (history : List GridEvent) (world : WorldGrid) : Prop where
  grid : world.Matches
  len_ : world.len_ = start.len_
  wid_ : world.wid_ = start.wid_
  inside : ∀ id entity, world.entity_ id = some entity →
    start.checkpos entity.bl_ = true ∧ start.checkpos entity.tr_ = true
  marked : ∀ p, Marked history p → world.isblock p = true

theorem isblock_of_not_checkpos (outside : world.checkpos p = false) :
    world.isblock p = true := by
  simp [isblock, outside]

theorem checkpos_iff : world.checkpos p = true ↔
    0 ≤ p.x ∧ p.x ≤ world.len_ - 1 ∧ 0 ≤ p.y ∧ p.y ≤ world.wid_ - 1 := by
  simp [checkpos, and_assoc]

theorem checkpos_of_inarea {bl tr : Pos} (first : world.checkpos bl = true)
    (second : world.checkpos tr = true) (inside : inarea p bl tr) : world.checkpos p = true := by
  rw [checkpos_iff] at first second ⊢
  rw [inarea_iff] at inside
  omega

theorem isblock_setblock (cell : Pos) (v : Bool) :
    (world.setblock cell v).isblock p =
      if p = cell ∧ world.checkpos p = true then v else world.isblock p := by
  unfold setblock
  cases inside : world.checkpos cell with
  | false =>
      have differ : ¬ (p = cell ∧ world.checkpos p = true) := by
        rintro ⟨rfl, isInside⟩
        simp [inside] at isInside
      simp [differ]
  | true =>
      have sameCheck : ({ world with block_ := Function.update world.block_ cell v }).checkpos p =
          world.checkpos p := rfl
      simp only [isblock, sameCheck, Bool.not_true, Bool.false_eq_true, if_false]
      by_cases same : p = cell
      · subst same
        simp [inside]
      · simp [same, Function.update_of_ne]

theorem setblock_tables (cell : Pos) (v : Bool) :
    (world.setblock cell v).entity_ = world.entity_ ∧
      (world.setblock cell v).posEntity_ = world.posEntity_ ∧
        (world.setblock cell v).len_ = world.len_ ∧ (world.setblock cell v).wid_ = world.wid_ := by
  unfold setblock
  split <;> exact ⟨rfl, rfl, rfl, rfl⟩

/-- What the loops of `addentity` and `delentity` write. -/
theorem foldl_setCell (world : WorldGrid) (positions : List Pos) (id : Option Int) :
    (positions.foldl (setCell id) world).entity_ = world.entity_ ∧
      (positions.foldl (setCell id) world).len_ = world.len_ ∧
      (positions.foldl (setCell id) world).wid_ = world.wid_ ∧
      ∀ p, (positions.foldl (setCell id) world).posEntity_ p =
          (if p ∈ positions then id else world.posEntity_ p) ∧
        (positions.foldl (setCell id) world).isblock p =
          if p ∈ positions ∧ world.checkpos p = true then id.isSome else world.isblock p := by
  induction positions generalizing world with
  | nil => simp
  | cons first positions ih =>
      let entered : WorldGrid :=
        { world with posEntity_ := Function.update world.posEntity_ first id }
      have isCell : setCell id world first = entered.setblock first id.isSome := rfl
      obtain ⟨sameEntity, samePos, sameLen, sameWid⟩ :=
        @setblock_tables entered first id.isSome
      rw [List.foldl_cons, isCell]
      obtain ⟨entities, len, wid, tables⟩ := ih (entered.setblock first id.isSome)
      refine ⟨entities.trans sameEntity, len.trans sameLen, wid.trans sameWid, fun p => ?_⟩
      obtain ⟨positions_, blocks⟩ := tables p
      have sameCheck : (entered.setblock first id.isSome).checkpos p = world.checkpos p := by
        simp only [checkpos, sameLen, sameWid]
        rfl
      have sameBlock : entered.isblock p = world.isblock p := rfl
      have enteredCheck : entered.checkpos p = world.checkpos p := rfl
      rw [positions_, blocks, samePos, sameCheck, isblock_setblock, sameBlock, enteredCheck]
      simp only [List.mem_cons]
      by_cases same : p = first
      · subst same
        cases inMap : world.checkpos p <;> simp [entered]
      · simp [same, entered, Function.update_of_ne]

/-- A rectangle in the map is small enough for its loops to end. -/
theorem loops_end {bl tr : Pos} (size : world.len_ ≤ 32767 ∧ world.wid_ ≤ 32767)
    (first : world.checkpos bl = true) (second : world.checkpos tr = true) :
    (∃ positions, cells bl tr = some positions ∧ ∀ p, p ∈ positions ↔ inarea p bl tr) ∧
      ∃ blocked, world.haveblock bl tr = some blocked ∧
        (blocked = false → ∀ p, inarea p bl tr → world.isblock p = false) := by
  rw [checkpos_iff] at first second
  have blRange : Int16Pos bl := ⟨⟨by omega, by omega⟩, ⟨by omega, by omega⟩⟩
  have trRange : Int16Pos tr := ⟨⟨by omega, by omega⟩, ⟨by omega, by omega⟩⟩
  constructor
  · obtain ⟨positions, traversed⟩ := (exists_cells_iff blRange trRange).mpr (by
      rw [Endless]
      omega)
    exact ⟨positions, traversed, fun p => mem_cells blRange trRange traversed⟩
  · have height : (tr.y + 1 - bl.y).toNat < int16Rounds := by
      rw [int16Rounds]
      omega
    have width : (tr.x + 1 - bl.x).toNat < int16Rounds := by
      rw [int16Rounds]
      omega
    have column : ∀ x, ∃ result,
        anyUp (fun y => some (world.isblock ⟨x, y⟩)) int16Rounds bl.y tr.y = some result :=
      fun x => exists_anyUp (fun y => ⟨_, rfl⟩) blRange.y.1 trRange.y.2 (by omega) height
    obtain ⟨blocked, searched⟩ :=
      exists_anyUp column blRange.x.1 trRange.x.2 (by omega) width
    refine ⟨blocked, searched, ?_⟩
    rintro rfl p inside
    exact of_anyUp_anyUp_eq_false blRange trRange searched inside

theorem checkpos_of_free (free : world.isblock p = false) : world.checkpos p = true := by
  by_contra outside
  rw [isblock_of_not_checkpos (by simpa using outside)] at free
  cases free

section Changes

variable {id : Int} {entity : WorldEntity} {positions : List Pos}

theorem entity_added (other : Int) (second : WorldEntity) :
    (positions.foldl (setCell (some id)) (world.withEntity id (some entity))).entity_ other =
        some second ↔
      other = id ∧ second = entity ∨ other ≠ id ∧ world.entity_ other = some second := by
  rw [(foldl_setCell _ positions (some id)).1, withEntity]
  by_cases isOther : other = id
  · simp [isOther, eq_comm]
  · simp [isOther, Function.update_of_ne]

theorem entity_deleted (other : Int) (second : WorldEntity) :
    ((positions.foldl (setCell none) world).withEntity id none).entity_ other = some second ↔
      other ≠ id ∧ world.entity_ other = some second := by
  rw [withEntity, (foldl_setCell world positions none).1]
  by_cases isOther : other = id
  · simp [isOther]
  · simp [isOther, Function.update_of_ne]

theorem isblock_added (blocked : world.isblock p = true) :
    (positions.foldl (setCell (some id)) (world.withEntity id (some entity))).isblock p = true := by
  rw [((foldl_setCell _ positions (some id)).2.2.2 p).2]
  split
  · rfl
  · exact blocked

/-- An added entity takes cells that were free. -/
theorem Matches.addentity (grid : world.Matches) (unused : world.entity_ id = none)
    (free : ∀ p, inarea p entity.bl_ entity.tr_ → world.isblock p = false)
    (covers : ∀ p, p ∈ positions ↔ inarea p entity.bl_ entity.tr_) :
    (positions.foldl (setCell (some id)) (world.withEntity id (some entity))).Matches := by
  obtain ⟨-, -, -, tables⟩ := foldl_setCell (world.withEntity id (some entity)) positions (some id)
  have freshCell : ∀ p other second, world.entity_ other = some second →
      inarea p entity.bl_ entity.tr_ → ¬ inarea p second.bl_ second.tr_ := by
    intro p other second isOther inFirst inSecond
    have blocked := grid.blocked other second isOther p inSecond
    rw [free p inFirst] at blocked
    exact Bool.false_ne_true blocked
  refine ⟨?_, ?_, ?_⟩
  · intro one first isFirst other second isSecond differ p ⟨inFirst, inSecond⟩
    rcases (entity_added one first).mp isFirst with ⟨rfl, rfl⟩ | ⟨-, oldFirst⟩ <;>
      rcases (entity_added other second).mp isSecond with ⟨rfl, rfl⟩ | ⟨-, oldSecond⟩
    · exact differ rfl
    · exact freshCell p other second oldSecond inFirst inSecond
    · exact freshCell p one first oldFirst inSecond inFirst
    · exact grid.apart one first oldFirst other second oldSecond differ p ⟨inFirst, inSecond⟩
  · intro p other
    simp only [entity_added, (tables p).1, covers]
    by_cases inFirst : inarea p entity.bl_ entity.tr_
    · rw [if_pos inFirst]
      constructor
      · rintro same
        cases same
        exact ⟨_, Or.inl ⟨rfl, rfl⟩, inFirst⟩
      · rintro ⟨second, ⟨rfl, -⟩ | ⟨-, isSecond⟩, inSecond⟩
        · rfl
        · exact absurd inSecond (freshCell p other second isSecond inFirst)
    · rw [if_neg inFirst]
      refine (grid.index p other).trans ⟨?_, ?_⟩
      · rintro ⟨second, isSecond, inSecond⟩
        refine ⟨second, Or.inr ⟨?_, isSecond⟩, inSecond⟩
        rintro rfl
        simp [unused] at isSecond
      · rintro ⟨second, ⟨-, rfl⟩ | ⟨-, isSecond⟩, inSecond⟩
        · exact absurd inSecond inFirst
        · exact ⟨second, isSecond, inSecond⟩
  · intro other second isSecond p inSecond
    rcases (entity_added other second).mp isSecond with ⟨-, rfl⟩ | ⟨-, oldSecond⟩
    · exact (tables p).2.trans
        (if_pos ⟨(covers p).mpr inSecond, checkpos_of_free (free p inSecond)⟩)
    · exact isblock_added (grid.blocked other second oldSecond p inSecond)

/-- A deletion unblocks the cells of the entity and no others. -/
theorem isblock_deleted
    (inWorld : ∀ p, inarea p entity.bl_ entity.tr_ → world.checkpos p = true)
    (covers : ∀ p, p ∈ positions ↔ inarea p entity.bl_ entity.tr_) (p : Pos) :
    ((positions.foldl (setCell none) world).withEntity id none).isblock p =
      if inarea p entity.bl_ entity.tr_ then false else world.isblock p := by
  obtain ⟨-, -, -, tables⟩ := foldl_setCell world positions none
  refine ((tables p).2).trans ?_
  by_cases inEntity : inarea p entity.bl_ entity.tr_
  · rw [if_pos ⟨(covers p).mpr inEntity, inWorld p inEntity⟩, if_pos inEntity]
    rfl
  · rw [if_neg fun both => inEntity ((covers p).mp both.1), if_neg inEntity]

theorem Matches.delentity (grid : world.Matches) (isEntity : world.entity_ id = some entity)
    (inWorld : ∀ p, inarea p entity.bl_ entity.tr_ → world.checkpos p = true)
    (covers : ∀ p, p ∈ positions ↔ inarea p entity.bl_ entity.tr_) :
    ((positions.foldl (setCell none) world).withEntity id none).Matches := by
  obtain ⟨-, -, -, tables⟩ := foldl_setCell world positions none
  refine ⟨?_, ?_, ?_⟩
  · intro one first isFirst other second isSecond
    exact grid.apart one first ((entity_deleted one first).mp isFirst).2 other second
      ((entity_deleted other second).mp isSecond).2
  · intro p other
    refine (iff_of_eq (congrArg (· = some other) (tables p).1)).trans ?_
    simp only [entity_deleted, covers]
    by_cases inEntity : inarea p entity.bl_ entity.tr_
    · rw [if_pos inEntity]
      constructor
      · rintro ⟨⟩
      · rintro ⟨second, ⟨differ, isOther⟩, inSecond⟩
        exact absurd ⟨inSecond, inEntity⟩
          (grid.apart other second isOther id entity isEntity differ p)
    · rw [if_neg inEntity, grid.index p other]
      constructor
      · rintro ⟨second, isSecond, inSecond⟩
        refine ⟨second, ⟨?_, isSecond⟩, inSecond⟩
        rintro rfl
        cases isEntity.symm.trans isSecond
        exact inEntity inSecond
      · rintro ⟨second, ⟨-, isSecond⟩, inSecond⟩
        exact ⟨second, isSecond, inSecond⟩
  · intro other second isSecond p inSecond
    obtain ⟨differ, isOther⟩ := (entity_deleted other second).mp isSecond
    rw [isblock_deleted inWorld covers, if_neg, grid.blocked other second isOther p inSecond]
    exact fun inEntity =>
      grid.apart other second isOther id entity isEntity differ p ⟨inSecond, inEntity⟩

end Changes

namespace Kept

variable {start : WorldGrid} {history : List GridEvent}

theorem checkpos (kept : Kept start history world) (p : Pos) :
    world.checkpos p = start.checkpos p := by
  simp only [WorldGrid.checkpos, kept.len_, kept.wid_]

theorem setblock (kept : Kept start history world) (x y : Int) (v : Bool)
    (respects : Respects history world (.setblock x y v)) :
    Kept start (history ++ [.setblock x y v]) (world.setblock ⟨toInt16 x, toInt16 y⟩ v) := by
  obtain ⟨sameEntity, samePos, sameLen, sameWid⟩ :=
    @setblock_tables world ⟨toInt16 x, toInt16 y⟩ v
  refine ⟨⟨?_, ?_, ?_⟩, sameLen.trans kept.len_, sameWid.trans kept.wid_, ?_, ?_⟩
  · rw [sameEntity]
    exact kept.grid.apart
  · rw [sameEntity, samePos]
    exact kept.grid.index
  · rw [sameEntity]
    intro id entity isEntity p inside
    have blocked := kept.grid.blocked id entity isEntity p inside
    rw [isblock_setblock]
    split
    next here =>
      cases v with
      | true => rfl
      | false => exact absurd (here.1 ▸ inside) (respects id entity isEntity)
    next => exact blocked
  · rw [sameEntity]
    exact kept.inside
  · intro p marked
    rw [isblock_setblock]
    split
    next here =>
      rcases marked_concat.mp marked with ⟨x', y', same, -⟩ | ⟨-, apart⟩
      · cases same
        rfl
      · exact absurd here.1.symm (apart x y v rfl)
    next elsewhere =>
      rcases marked_concat.mp marked with ⟨x', y', same, atCell⟩ | ⟨old, -⟩
      · cases same
        have outside : world.checkpos p = false := by
          by_contra inMap
          exact elsewhere ⟨atCell.symm, by simpa using inMap⟩
        exact isblock_of_not_checkpos outside
      · exact kept.marked p old

theorem marked_setentity {id : Int} {corners : Option Corners} {p : Pos} :
    Marked (history ++ [.setentity id corners]) p ↔ Marked history p := by
  rw [marked_concat]
  simp

theorem addentity (kept : Kept start history world) {id : Int} {corners : Corners}
    {positions : List Pos} (unused : world.entity_ id = none)
    (free : ∀ p, inarea p corners.first corners.second → world.isblock p = false)
    (inMap : start.checkpos corners.first = true ∧ start.checkpos corners.second = true)
    (covers : ∀ p, p ∈ positions ↔ inarea p corners.first corners.second) :
    Kept start (history ++ [.setentity id (some corners)])
      (positions.foldl (setCell (some id))
        (world.withEntity id (some ⟨corners.first, corners.second⟩))) := by
  obtain ⟨-, len, wid, -⟩ := foldl_setCell
    (world.withEntity id (some ⟨corners.first, corners.second⟩)) positions (some id)
  refine ⟨kept.grid.addentity unused free covers, len.trans kept.len_, wid.trans kept.wid_, ?_, ?_⟩
  · intro other second isSecond
    rcases (entity_added other second).mp isSecond with ⟨-, rfl⟩ | ⟨-, oldSecond⟩
    · exact inMap
    · exact kept.inside other second oldSecond
  · intro p marked
    exact isblock_added (kept.marked p (marked_setentity.mp marked))

theorem unchanged (kept : Kept start history world) {id : Int} {corners : Option Corners} :
    Kept start (history ++ [.setentity id corners]) world :=
  ⟨kept.grid, kept.len_, kept.wid_, kept.inside,
    fun p marked => kept.marked p (marked_setentity.mp marked)⟩

theorem inWorld (kept : Kept start history world) {id : Int} {entity : WorldEntity}
    (isEntity : world.entity_ id = some entity) (p : Pos)
    (inEntity : inarea p entity.bl_ entity.tr_) : world.checkpos p = true := by
  obtain ⟨first, second⟩ := kept.inside id entity isEntity
  rw [kept.checkpos]
  exact checkpos_of_inarea first second inEntity

theorem delentity (kept : Kept start history world) {id : Int} {entity : WorldEntity}
    {positions : List Pos} (isEntity : world.entity_ id = some entity)
    (covers : ∀ p, p ∈ positions ↔ inarea p entity.bl_ entity.tr_)
    (unmarked : ∀ p, inarea p entity.bl_ entity.tr_ → ¬ Marked history p) :
    Kept start (history ++ [.setentity id none])
      ((positions.foldl (setCell none) world).withEntity id none) := by
  obtain ⟨-, len, wid, -⟩ := foldl_setCell world positions none
  refine ⟨kept.grid.delentity isEntity (kept.inWorld isEntity) covers,
    len.trans kept.len_, wid.trans kept.wid_, ?_, ?_⟩
  · intro other second isSecond
    exact kept.inside other second ((entity_deleted other second).mp isSecond).2
  · intro p marked
    have wasMarked := marked_setentity.mp marked
    rw [isblock_deleted (kept.inWorld isEntity) covers,
      if_neg fun inEntity => unmarked p inEntity wasMarked]
    exact kept.marked p wasMarked

/-- An addition ends, and either changes nothing or adds an entity on free cells. -/
theorem addentity_cases (kept : Kept start history world)
    (size : start.len_ ≤ 32767 ∧ start.wid_ ≤ 32767) {id : Int} {corners : Corners}
    (inMap : start.checkpos corners.first = true ∧ start.checkpos corners.second = true) :
    world.setentity id (some corners) = some world ∨
      world.entity_ id = none ∧
        (∀ p, inarea p corners.first corners.second → world.isblock p = false) ∧
        ∃ positions : List Pos, (∀ p, p ∈ positions ↔ inarea p corners.first corners.second) ∧
          world.setentity id (some corners) = some (positions.foldl (setCell (some id))
            (world.withEntity id (some ⟨corners.first, corners.second⟩))) := by
  have worldSize : world.len_ ≤ 32767 ∧ world.wid_ ≤ 32767 := by
    rw [kept.len_, kept.wid_]
    exact size
  have inWorld : world.checkpos corners.first = true ∧ world.checkpos corners.second = true := by
    rw [kept.checkpos, kept.checkpos]
    exact inMap
  obtain ⟨⟨positions, traversed, covers⟩, blocked, searched, free⟩ :=
    loops_end worldSize inWorld.1 inWorld.2
  cases unused : world.entity_ id with
  | some entity => exact Or.inl (by simp [setentity, WorldGrid.addentity, unused])
  | none =>
      cases blocked with
      | true => exact Or.inl (by simp [setentity, WorldGrid.addentity, unused, searched])
      | false =>
          exact Or.inr ⟨rfl, free rfl, positions, covers, by
            simp [setentity, WorldGrid.addentity, unused, searched, traversed]⟩

/-- A deletion ends, and changes nothing without an entity. -/
theorem delentity_cases (kept : Kept start history world)
    (size : start.len_ ≤ 32767 ∧ start.wid_ ≤ 32767) (id : Int) :
    world.entity_ id = none ∧ world.setentity id none = some world ∨
      ∃ (entity : WorldEntity) (positions : List Pos), world.entity_ id = some entity ∧
        (∀ p, p ∈ positions ↔ inarea p entity.bl_ entity.tr_) ∧
        world.setentity id none =
          some ((positions.foldl (setCell none) world).withEntity id none) := by
  cases isEntity : world.entity_ id with
  | none => exact Or.inl ⟨rfl, by simp [setentity, WorldGrid.delentity, isEntity]⟩
  | some entity =>
      have worldSize : world.len_ ≤ 32767 ∧ world.wid_ ≤ 32767 := by
        rw [kept.len_, kept.wid_]
        exact size
      obtain ⟨first, second⟩ := kept.inside id entity isEntity
      rw [← kept.checkpos] at first second
      obtain ⟨⟨positions, traversed, covers⟩, -⟩ := loops_end worldSize first second
      exact Or.inr ⟨entity, positions, rfl, covers, by
        simp [setentity, WorldGrid.delentity, isEntity, traversed]⟩

theorem step (kept : Kept start history world)
    (size : start.len_ ≤ 32767 ∧ start.wid_ ≤ 32767) {event : GridEvent}
    (inside : event.Inside start) (respects : Respects history world event) :
    ∃ after, world.step event = some after ∧ Kept start (history ++ [event]) after ∧
      ∀ id, event = .setentity id none → Frees history world after := by
  match event with
  | .setblock x y v =>
      exact ⟨_, rfl, kept.setblock x y v respects, fun id absurdity => nomatch absurdity⟩
  | .setentity id (some corners) =>
      rcases kept.addentity_cases size inside with same | ⟨unused, free, positions, covers, added⟩
      · exact ⟨world, same, kept.unchanged, fun id absurdity => nomatch absurdity⟩
      · exact ⟨_, added, kept.addentity unused free inside covers,
          fun id absurdity => nomatch absurdity⟩
  | .setentity id none =>
      rcases kept.delentity_cases size id with ⟨-, same⟩ |
        ⟨entity, positions, isEntity, covers, del⟩
      · refine ⟨world, same, kept.unchanged, fun _ _ p blocked unblocked => ?_⟩
        rw [blocked] at unblocked
        exact absurd unblocked (by decide)
      · have keptAfter := kept.delentity isEntity covers (respects entity isEntity)
        refine ⟨_, del, keptAfter, fun _ _ p blocked unblocked => ?_⟩
        rw [isblock_deleted (kept.inWorld isEntity) covers, ite_eq_left_iff] at unblocked
        have inEntity : inarea p entity.bl_ entity.tr_ := by
          by_contra outside
          exact absurd ((unblocked outside).symm.trans blocked) (by decide)
        refine ⟨fun other second isSecond inSecond => ?_, respects entity isEntity p inEntity⟩
        have stillBlocked := keptAfter.grid.blocked other second isSecond p inSecond
        rw [isblock_deleted (kept.inWorld isEntity) covers, if_pos inEntity] at stillBlocked
        exact Bool.false_ne_true stillBlocked

/-- A call after which the grid matches respects the others. -/
theorem respects (kept : Kept start history world)
    (size : start.len_ ≤ 32767 ∧ start.wid_ ≤ 32767) {event : GridEvent} {after : WorldGrid}
    (stepped : world.step event = some after) (grid : after.Matches)
    (frees : ∀ id, event = .setentity id none → Frees history world after) :
    Respects history world event := by
  match event with
  | .setblock x y true => trivial
  | .setblock x y false =>
      cases stepped
      intro id entity isEntity inEntity
      obtain ⟨first, second⟩ := kept.inside id entity isEntity
      have inWorld : world.checkpos ⟨toInt16 x, toInt16 y⟩ = true := by
        rw [kept.checkpos]
        exact checkpos_of_inarea first second inEntity
      have blocked := grid.blocked id entity
        ((congrFun (setblock_tables _ _).1 id).trans isEntity) _ inEntity
      rw [isblock_setblock, if_pos ⟨rfl, inWorld⟩] at blocked
      exact Bool.false_ne_true blocked
  | .setentity id (some corners) => trivial
  | .setentity id none =>
      intro entity isEntity p inEntity
      rcases kept.delentity_cases size id with ⟨unused, -⟩ | ⟨entity', positions, same, covers, del⟩
      · exact absurd (unused.symm.trans isEntity) nofun
      · cases isEntity.symm.trans same
        cases stepped.symm.trans del
        refine (frees id rfl p (kept.grid.blocked id entity isEntity p inEntity) ?_).2
        rw [isblock_deleted (kept.inWorld isEntity) covers, if_pos inEntity]

end Kept

section Runs

variable {start : WorldGrid} {history : List GridEvent}

theorem run_concat (start : WorldGrid) (history : List GridEvent) (event : GridEvent) :
    start.run (history ++ [event]) = (start.run history).bind fun world => world.step event := by
  rw [run, List.foldlM_append]
  simp only [List.foldlM_cons, List.foldlM_nil, bind_pure]
  rfl

theorem kept_create (len wid : Int) : Kept (create len wid) [] (create len wid) := by
  refine ⟨⟨?_, ?_, ?_⟩, rfl, rfl, ?_, ?_⟩
  · rintro id entity ⟨⟩
  · intro p id
    simp [create]
  · rintro id entity ⟨⟩
  · rintro id entity ⟨⟩
  · rintro p ⟨before, x, y, after, split, -⟩
    exact absurd split.symm (List.append_ne_nil_of_right_ne_nil before (List.cons_ne_nil _ after))

theorem create_size (len wid : Int) :
    (create len wid).len_ ≤ 32767 ∧ (create len wid).wid_ ≤ 32767 :=
  ⟨Int.le_of_lt_add_one (toInt16_range len).2, Int.le_of_lt_add_one (toInt16_range wid).2⟩

/-- Every call of the history respects what the calls before it have blocked. -/
def Respectful (start : WorldGrid) (history : List GridEvent) : Prop :=
  ∀ before event after, history = before ++ event :: after →
    ∀ world, start.run before = some world → Respects before world event

theorem Respectful.of_append {before after : List GridEvent}
    (respectful : start.Respectful (before ++ after)) : start.Respectful before := by
  rintro first event rest rfl
  exact respectful first event (rest ++ after) (by simp)

theorem exists_kept (size : start.len_ ≤ 32767 ∧ start.wid_ ≤ 32767) (kept : Kept start [] start)
    (inside : ∀ event ∈ history, event.Inside start) (respectful : start.Respectful history) :
    ∃ world, start.run history = some world ∧ Kept start history world := by
  refine invariant_of_condition
    (fun before => ∃ world, start.run before = some world ∧ Kept start before world)
    ⟨start, rfl, kept⟩ ?_ inside respectful
  rintro before event ⟨world, ran, keptWorld⟩ isInside respects
  obtain ⟨after, stepped, keptAfter, -⟩ := keptWorld.step size isInside (respects world ran)
  exact ⟨after, by rw [run_concat, ran, Option.bind_some, stepped], keptAfter⟩

theorem exact_of_respectful (size : start.len_ ≤ 32767 ∧ start.wid_ ≤ 32767)
    (kept : Kept start [] start) (inside : ∀ event ∈ history, event.Inside start)
    (respectful : start.Respectful history) : start.Exact history := by
  obtain ⟨world, ran, keptWorld⟩ := exists_kept size kept inside respectful
  refine ⟨world, ran, keptWorld.grid, ?_⟩
  rintro before id rfl old ranOld
  obtain ⟨old', ranOld', keptOld⟩ := exists_kept size kept
    (fun event member => inside event (List.mem_append_left _ member)) respectful.of_append
  cases ranOld.symm.trans ranOld'
  obtain ⟨after, stepped, -, frees⟩ := keptOld.step size (inside (.setentity id none) (by simp))
    (respectful before _ [] rfl old ranOld)
  rw [run_concat, ranOld, Option.bind_some, stepped] at ran
  cases ran
  exact frees id rfl

end Runs

/-- The grid of a fresh world matches its entities after every call exactly when
every call respects what the calls before it have blocked. -/
theorem exact_iff_respectful (len wid : Int) (history : List GridEvent)
    (inside : ∀ event ∈ history, event.Inside (create len wid)) :
    (∀ before after, history = before ++ after → (create len wid).Exact before) ↔
      (create len wid).Respectful history := by
  have size := create_size len wid
  have start := kept_create len wid
  refine forall_good_iff
    (fun before => (∀ event ∈ before, event.Inside (create len wid)) ∧
      (create len wid).Respectful before)
    ⟨by simp, fun before event after split => by simp at split⟩
    (fun before both => exact_of_respectful size start both.1 both.2) ?_ ?_ inside
  · rintro before event ⟨insideBefore, respectful⟩ isInside respects
    refine ⟨fun other member => ?_, forall_splits_concat.mpr ⟨respectful, respects⟩⟩
    rcases List.mem_append.mp member with old | last
    · exact insideBefore other old
    · rw [List.mem_singleton.mp last]
      exact isInside
  · rintro before event ⟨insideBefore, respectful⟩ isInside ⟨after, ranAfter, grid, frees⟩ world ran
    obtain ⟨world', ran', keptWorld⟩ := exists_kept size start insideBefore respectful
    cases ran.symm.trans ran'
    rw [run_concat, ran, Option.bind_some] at ranAfter
    refine keptWorld.respects size ranAfter grid ?_
    rintro id rfl
    exact frees before id rfl world ran

/-- Two entities, of which one is deleted, and a cell that is blocked by hand between them. -/
theorem exact_iff_respectful_entity :
    (create 10 10).Exact [.setentity 1 (some (2, 2, 3, 3)), .setentity 2 (some (5, 5, 5, 6)),
      .setblock 4 4 true, .setentity 1 none] := by
  refine (exact_iff_respectful 10 10 _ ?_).mpr ?_ _ [] (List.append_nil _).symm
  · simp only [List.forall_mem_cons]
    exact ⟨⟨by decide, by decide⟩, ⟨by decide, by decide⟩, trivial, trivial, by simp⟩
  · simp only [Respectful, forall_splits_cons]
    refine ⟨fun _ _ => trivial, fun _ _ => trivial, fun _ _ => trivial, ?_, forall_splits_nil⟩
    intro world ran entity isEntity p inside marked
    cases ran
    cases isEntity
    obtain ⟨before, x, y, after, split, rfl, -⟩ := marked
    have member : GridEvent.setblock x y true ∈ [GridEvent.setentity 1 (some (2, 2, 3, 3)),
        .setentity 2 (some (5, 5, 5, 6)), .setblock 4 4 true] :=
      split ▸ List.mem_append_right before List.mem_cons_self
    obtain ⟨rfl, rfl⟩ : x = 4 ∧ y = 4 := by simpa using member
    revert inside
    decide

/-- A deletion unblocks a cell that has been blocked by hand. -/
theorem not_exact_deleted :
    (∀ event ∈ [GridEvent.setentity 1 (some (2, 2, 2, 2)), .setblock 2 2 true, .setentity 1 none],
      event.Inside (create 10 10)) ∧
    ¬ (create 10 10).Exact
      [.setentity 1 (some (2, 2, 2, 2)), .setblock 2 2 true, .setentity 1 none] := by
  constructor
  · intro event member
    rcases List.mem_cons.mp member with rfl | member
    · exact (by decide : (create 10 10).checkpos ⟨2, 2⟩ = true ∧
        (create 10 10).checkpos ⟨2, 2⟩ = true)
    · rcases List.mem_cons.mp member with rfl | member
      · trivial
      · rw [List.mem_singleton.mp member]
        trivial
  · rintro ⟨after, ran, -, frees⟩
    have unblocked : after.isblock ⟨2, 2⟩ = false := by
      cases ran
      decide
    have free := frees [.setentity 1 (some (2, 2, 2, 2)), .setblock 2 2 true] 1 rfl _ rfl ⟨2, 2⟩
      (by decide) unblocked
    exact free.2 ⟨[.setentity 1 (some (2, 2, 2, 2))], 2, 2, [], rfl, rfl, by simp⟩

end WorldGrid

end Slg

end LuaServer
