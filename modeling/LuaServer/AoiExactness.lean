import LuaServer.AoiGrid

/-!
# The interest grid is exact

The two formulas for the cell of a position agree on the map, so every actor is
found in the cell of its position.  The nine cells around a position are visited
once each, and the callbacks keep those that the other position does not see.
-/

namespace LuaServer

namespace SkillWorld

open GridCell MachineIntegers

/-- The cell of a position. -/
def cellOf (x y : ℚ) : Pos :=
  ⟨⌊x / 10⌋, ⌊y / 10⌋⟩

/-- Cells at a Chebyshev distance of at most one. -/
def Near (g cell : Pos) : Prop :=
  |cell.x - g.x| ≤ 1 ∧ |cell.y - g.y| ≤ 1

/-- The nearest position of the map. -/
def clamp (world : World) (position : ℚ × ℚ) : ℚ × ℚ :=
  (max 0 (min position.1 (world.len - 1)), max 0 (min position.2 (world.wid - 1)))

/-- The position each living actor was given last. -/
def givenStep (given : Int → Option (ℚ × ℚ)) : Event → Int → Option (ℚ × ℚ)
  | .addactor id actor =>
      match given id with
      | some _ => given
      | none => Function.update given id (some (actor.x_, actor.y_))
  | .delactor id => Function.update given id none
  | .setpos id fx fy _ _ =>
      match given id with
      | some _ => Function.update given id (some (fx, fy))
      | none => given

def givenAfter (events : List Event) : Int → Option (ℚ × ℚ) :=
  events.foldl givenStep fun _ => none

/-- The actors of a world, clamped to the map, and its grid. -/
structure Exact (world : ActorWorld) (given : Int → Option (ℚ × ℚ)) : Prop where
  clamped : ∀ id, (world.actor_ id).map (fun actor => (actor.x_, actor.y_)) =
    (given id).map (clamp world.toWorld)
  cells : ∀ g id, world.aoi_.aoi_.Holds g id ↔
    ∃ actor, world.actor_ id = some actor ∧ cellOf actor.x_ actor.y_ = g
  notEmpty : ∀ g, world.aoi_.aoi_ g ≠ some ∅

/-- The order in which the tables list the ids of their cells. -/
def Lists (index : CellIndex Int Pos) (listed : Pos → List Int) : Prop :=
  ∀ g ids, index g = some ids → (listed g).Nodup ∧ ∀ id, id ∈ listed g ↔ id ∈ ids

/-- What distinct cells list: the ids in them, once each. -/
theorem flatMap_listed {index : CellIndex Int Pos} {place : Int → Option Pos}
    {listed : Pos → List Int} (places : index.Places place) (lists : Lists index listed)
    {cells : List Pos} (distinct : cells.Nodup) (occupied : ∀ g ∈ cells, (index g).isSome) :
    (cells.flatMap listed).Nodup ∧
      ∀ id, id ∈ cells.flatMap listed ↔ ∃ g ∈ cells, place id = some g := by
  have holds : ∀ g ∈ cells, ∀ id, id ∈ listed g ↔ place id = some g := by
    intro g isIn id
    obtain ⟨ids, isIds⟩ := Option.isSome_iff_exists.mp (occupied g isIn)
    rw [(lists g ids isIds).2, ← places.holds, CellIndex.Holds]
    simp [isIds]
  constructor
  · rw [List.nodup_flatMap]
    constructor
    · intro g isIn
      obtain ⟨ids, isIds⟩ := Option.isSome_iff_exists.mp (occupied g isIn)
      exact (lists g ids isIds).1
    · apply distinct.pairwise_of_forall_ne
      intro g isIn other otherIn apart id here there
      -- An id lies in one cell only.
      rw [holds g isIn] at here
      rw [holds other otherIn] at there
      exact apart (Option.some.inj (here.symm.trans there))
  · intro id
    rw [List.mem_flatMap]
    exact exists_congr fun g => and_congr_right fun isIn => holds g isIn id

/-- At most `count` ids have the property. -/
def AtMost (count : Nat) (qualifies : Int → Prop) : Prop :=
  ∃ ids : List Int, ids.length ≤ count ∧ ∀ id, qualifies id → id ∈ ids

/-- An id in a cell near `g` and not near `away`. -/
def Appears (index : CellIndex Int Pos) (g away : Pos) (id : Int) : Prop :=
  ∃ cell, index.Holds cell id ∧ Near g cell ∧ ¬ Near away cell

/-- What a move of `aid` from the cell `g` to the cell `g'` reports. -/
structure ReportsMove (index : CellIndex Int Pos) (aid : Int) (g g' : Pos)
    (adds dels : List Int) : Prop where
  adds : AtMost AOIMAX (fun id => id ≠ aid ∧ Appears index g' g id) →
    adds.Nodup ∧ ∀ id, id ∈ adds ↔ id ≠ aid ∧ Appears index g' g id
  dels : AtMost (2 * AOIMAX) (Appears index g g') →
    dels.Nodup ∧ ∀ id, id ∈ dels ↔ Appears index g g' id

namespace Aoi

/-- The loop takes the ids it keeps up to its bound. -/
theorem collect_eq {most : Nat} {keep : Int → Bool} {taken : List Int}
    (upTo : taken.length ≤ most) (ids : List Int) :
    collect most keep taken ids = (taken ++ ids.filter keep).take most := by
  induction ids generalizing taken with
  | nil => simp [collect, List.take_of_length_le upTo]
  | cons id ids ih =>
      simp only [collect]
      split
      next full =>
        have length : taken.length = most := le_antisymm upTo full
        rw [← length, List.take_left']
        rfl
      next notFull =>
        by_cases kept : keep id
        · rw [if_pos kept, ih (by simp; omega), List.filter_cons_of_pos kept]
          simp
        · rw [if_neg kept, ih upTo, List.filter_cons_of_neg kept]

theorem take_take_append (most : Nat) (front back : List Int) :
    (front.take most ++ back).take most = (front ++ back).take most := by
  rw [List.take_append, List.take_append, List.take_take, min_self, List.length_take]
  congr 2
  omega

/-- The callbacks take what the cells they do not skip list. -/
theorem collect_cells {most : Nat} (keep : Int → Bool) (skip : Pos → Bool)
    (listed : Pos → List Int) (cells : List Pos) (taken : List Int)
    (upTo : taken.length ≤ most) :
    cells.foldl (fun taken g =>
        if skip g then taken else collect most keep taken (listed g)) taken =
      (taken ++ (cells.filter fun g => !skip g).flatMap fun g =>
        (listed g).filter keep).take most := by
  induction cells generalizing taken with
  | nil => simp [List.take_of_length_le upTo]
  | cons g cells ih =>
      rw [List.foldl_cons]
      by_cases skipped : skip g
      · rw [if_pos skipped, ih _ upTo, List.filter_cons_of_neg (by simp [skipped])]
      · rw [if_neg skipped, collect_eq upTo, ih _ (List.length_take_le most _),
          List.filter_cons_of_pos (by simp [skipped]), List.flatMap_cons]
        rw [take_take_append, List.append_assoc]

theorem take_of_atMost {most : Nat} {qualifies : Int → Prop} {ids : List Int}
    (few : AtMost most qualifies) (nodup : ids.Nodup) (members : ∀ id ∈ ids, qualifies id) :
    ids.take most = ids := by
  obtain ⟨all, length, complete⟩ := few
  apply List.take_of_length_le
  have subset : ids ⊆ all := fun id member => complete id (members id member)
  exact ((nodup.subperm subset).length_le).trans length

theorem coincide_iff {g : Pos} {gx gy : Int} : coincide g gx gy = true ↔ Near ⟨gx, gy⟩ g := by
  simp only [coincide, Near, abs_le]
  split
  · simp only [Bool.false_eq_true, false_iff]
    omega
  · split
    · simp only [Bool.false_eq_true, false_iff]
      omega
    · split
      · simp only [Bool.false_eq_true, false_iff]
        omega
      · split
        · simp only [Bool.false_eq_true, false_iff]
          omega
        · simp only [true_iff]
          omega

/-- A position of a map. -/
def InGrid (p : Pos) : Prop :=
  0 ≤ p.x ∧ p.x ≤ 32766 ∧ 0 ≤ p.y ∧ p.y ≤ 32766

theorem tdiv_AOILEN {value : Int} (lower : 0 ≤ value) (upper : value ≤ 32766) :
    toInt16 (value.tdiv AOILEN) = value / 10 := by
  rw [AOILEN, Int.tdiv_eq_ediv_of_nonneg lower]
  apply toInt16_of_range <;> omega

/-- The cells visited around a position of the map are those of the index near it,
once each. -/
theorem traversalArea_spec (aoi : Aoi) {p : Pos} (inGrid : InGrid p) :
    (aoi.traversalArea p).Nodup ∧ ∀ g, g ∈ aoi.traversalArea p ↔
      (aoi.aoi_ g).isSome ∧ Near ⟨p.x / 10, p.y / 10⟩ g := by
  obtain ⟨xLower, xUpper, yLower, yUpper⟩ := inGrid
  have steps : ∀ d : Pos, d ∈ aoi.dirs_.elements ↔ IsStep d := by
    intro d
    rw [aoi.dirs_.perm.mem_iff]
    simp only [directions, IsStep, List.mem_cons, List.not_mem_nil, or_false, GridCell.ext_iff]
    omega
  have shifted : ∀ d : Pos, IsStep d →
      (⟨toInt16 (p.x.tdiv AOILEN + d.x), toInt16 (p.y.tdiv AOILEN + d.y)⟩ : Pos) =
        ⟨p.x / 10 + d.x, p.y / 10 + d.y⟩ := by
    rintro d ⟨xLeft, xRight, yLeft, yRight⟩
    rw [AOILEN, Int.tdiv_eq_ediv_of_nonneg xLower, Int.tdiv_eq_ediv_of_nonneg yLower]
    ext
    · apply toInt16_of_range <;> omega
    · apply toInt16_of_range <;> omega
  constructor
  · apply List.Nodup.filter
    have distinct : aoi.dirs_.elements.Nodup :=
      aoi.dirs_.perm.nodup_iff.mpr (by decide)
    apply List.Nodup.map_on _ distinct
    intro d isIn other otherIn same
    rw [shifted d ((steps d).mp isIn), shifted other ((steps other).mp otherIn)] at same
    injection same with sameX sameY
    ext <;> omega
  · intro g
    simp only [traversalArea, List.mem_filter, List.mem_map]
    rw [and_comm]
    apply and_congr_right
    intro _
    constructor
    · rintro ⟨d, isIn, rfl⟩
      have isStep := (steps d).mp isIn
      rw [shifted d isStep]
      obtain ⟨xLeft, xRight, yLeft, yRight⟩ := isStep
      simp only [Near, abs_le]
      omega
    · rintro ⟨nearX, nearY⟩
      rw [abs_le] at nearX nearY
      simp only at nearX nearY
      have isStep : IsStep ⟨g.x - p.x / 10, g.y - p.y / 10⟩ := by
        simp only [IsStep]
        omega
      refine ⟨⟨g.x - p.x / 10, g.y - p.y / 10⟩, (steps _).mpr isStep, ?_⟩
      rw [shifted _ isStep]
      ext <;> simp

section Diff

variable {aoi : Aoi} {place : Int → Option Pos} {listed : Pos → List Int} {p q : Pos}

/-- The cells around `p` that the cells around `q` do not coincide with list what
appears there, once each. -/
theorem listed_spec (places : aoi.aoi_.Places place) (lists : Lists aoi.aoi_ listed)
    (inGrid : InGrid p) (keep : Int → Bool) (g : Pos) :
    (((aoi.traversalArea p).filter fun cell => !coincide cell g.x g.y).flatMap
        fun cell => (listed cell).filter keep).Nodup ∧
      ∀ id, id ∈ ((aoi.traversalArea p).filter fun cell => !coincide cell g.x g.y).flatMap
          (fun cell => (listed cell).filter keep) ↔
        keep id ∧ Appears aoi.aoi_ ⟨p.x / 10, p.y / 10⟩ g id := by
  obtain ⟨nodup, cells⟩ := aoi.traversalArea_spec inGrid
  have visited : ∀ cell, cell ∈ (aoi.traversalArea p).filter
      (fun cell => !coincide cell g.x g.y) ↔
        ((aoi.aoi_ cell).isSome ∧ Near ⟨p.x / 10, p.y / 10⟩ cell) ∧ ¬ Near g cell := by
    intro cell
    have away : coincide cell g.x g.y = true ↔ Near g cell := coincide_iff
    rw [List.mem_filter, cells, ← away]
    simp
  obtain ⟨listedOnce, members⟩ := flatMap_listed places lists
    (nodup.filter fun cell => !coincide cell g.x g.y) fun cell isIn => ((visited cell).mp isIn).1.1
  rw [← List.filter_flatMap]
  refine ⟨listedOnce.filter keep, fun id => ?_⟩
  rw [List.mem_filter, members, and_comm]
  apply and_congr_right
  intro _
  constructor
  · rintro ⟨cell, isIn, here⟩
    obtain ⟨⟨-, near⟩, away⟩ := (visited cell).mp isIn
    exact ⟨cell, (places.holds cell id).mpr here, near, away⟩
  · rintro ⟨cell, isHeld, near, away⟩
    have here := (places.holds cell id).mp isHeld
    exact ⟨cell, (visited cell).mpr ⟨⟨places.isSome here, near⟩, away⟩, here⟩

/-- `Aoi::diff` reports a move between two positions of the map. -/
theorem reportsMove_diff (places : aoi.aoi_.Places place) (lists : Lists aoi.aoi_ listed)
    (before : InGrid p) (behind : InGrid q) (aid : Int) :
    ReportsMove aoi.aoi_ aid ⟨p.x / 10, p.y / 10⟩ ⟨q.x / 10, q.y / 10⟩
      (aoi.diff aid p q listed).1 (aoi.diff aid p q listed).2 := by
  have adds := collect_cells (fun id => id ≠ aid) (fun g => coincide g (p.x / 10) (p.y / 10))
    listed (aoi.traversalArea q) [] (Nat.zero_le AOIMAX)
  have dels := collect_cells (fun _ => true) (fun g => coincide g (q.x / 10) (q.y / 10))
    listed (aoi.traversalArea p) [] (Nat.zero_le (AOIMAX * 2))
  simp only [diff, tdiv_AOILEN before.1 before.2.1, tdiv_AOILEN before.2.2.1 before.2.2.2,
    tdiv_AOILEN behind.1 behind.2.1, tdiv_AOILEN behind.2.2.1 behind.2.2.2, adds, dels,
    List.nil_append]
  constructor
  · intro few
    obtain ⟨nodup, members⟩ := listed_spec places lists behind (fun id => id ≠ aid)
      ⟨p.x / 10, p.y / 10⟩
    simp only [decide_eq_true_eq] at members
    rw [take_of_atMost few nodup fun id member => (members id).mp member]
    exact ⟨nodup, members⟩
  · intro few
    obtain ⟨nodup, members⟩ := listed_spec places lists before (fun _ => true)
      ⟨q.x / 10, q.y / 10⟩
    simp only [true_and] at members
    rw [take_of_atMost (Nat.mul_comm 2 AOIMAX ▸ few) nodup fun id member => (members id).mp member]
    exact ⟨nodup, members⟩

end Diff

end Aoi

/-- A position on the widest map. -/
structure OnMap (x y : ℚ) : Prop where
  xLower : 0 ≤ x
  xUpper : x ≤ 32766
  yLower : 0 ≤ y
  yUpper : y ≤ 32766

theorem truncate_of_range {value : ℚ} (lower : 0 ≤ value) (upper : value ≤ 32766) :
    truncate value = ⌊value⌋ := by
  have floorLower : 0 ≤ ⌊value⌋ := Int.floor_nonneg.mpr lower
  have floorUpper : ⌊value⌋ ≤ 32766 := by
    have less := Int.floor_mono upper
    simpa using less
  rw [truncate, if_pos lower]
  apply toInt16_of_range <;> omega

section Positions

variable {actor : Actor}

/-- The formula of `Aoi::add` and `Aoi::del`. -/
theorem gridOf_eq (onMap : OnMap actor.x_ actor.y_) :
    Aoi.gridOf actor = cellOf actor.x_ actor.y_ := by
  obtain ⟨xLower, xUpper, yLower, yUpper⟩ := onMap
  have length : ((AOILEN : Int) : ℚ) = 10 := by norm_num [AOILEN]
  rw [Aoi.gridOf, length, cellOf, truncate_of_range (by positivity) (by linarith),
    truncate_of_range (by positivity) (by linarith)]

theorem inGrid_positionOf (onMap : OnMap actor.x_ actor.y_) :
    Aoi.InGrid (ActorWorld.positionOf actor) := by
  obtain ⟨xLower, xUpper, yLower, yUpper⟩ := onMap
  have xFloor := Int.floor_mono xUpper
  have yFloor := Int.floor_mono yUpper
  rw [ActorWorld.positionOf, truncate_of_range xLower xUpper, truncate_of_range yLower yUpper]
  exact ⟨Int.floor_nonneg.mpr xLower, by simpa using xFloor, Int.floor_nonneg.mpr yLower,
    by simpa using yFloor⟩

/-- The formula of `Aoi::diff`. -/
theorem positionOf_div (onMap : OnMap actor.x_ actor.y_) :
    (⟨(ActorWorld.positionOf actor).x / 10, (ActorWorld.positionOf actor).y / 10⟩ : Pos) =
      cellOf actor.x_ actor.y_ := by
  obtain ⟨xLower, xUpper, yLower, yUpper⟩ := onMap
  rw [ActorWorld.positionOf, truncate_of_range xLower xUpper, truncate_of_range yLower yUpper,
    cellOf]
  congr 1
  · exact (Int.floor_div_natCast actor.x_ 10).symm
  · exact (Int.floor_div_natCast actor.y_ 10).symm

end Positions

/-- A map with at least one position. -/
def HasRoom (world : World) : Prop :=
  1 ≤ world.len ∧ 1 ≤ world.wid

/-- The two comparisons of `World::correctpos` for one coordinate. -/
theorem clamp_eq {value top : ℚ} (room : 0 ≤ top) :
    (if (if value < 0 then 0 else value) > top then top else if value < 0 then 0 else value) =
      max 0 (min value top) := by
  by_cases negative : value < 0
  · simp only [if_pos negative, if_neg (not_lt.mpr room)]
    rw [min_eq_left (negative.le.trans room), max_eq_left negative.le]
  · simp only [if_neg negative]
    split
    next above =>
      rw [min_eq_right above.le, max_eq_right room]
    next notAbove =>
      rw [min_eq_left (not_lt.mp notAbove), max_eq_right (not_lt.mp negative)]

/-- `World::correctpos` clamps to the map. -/
theorem correctpos_spec {world : ActorWorld} (hasRoom : HasRoom world.toWorld) (actor : Actor) :
    ((world.correctpos actor).x_, (world.correctpos actor).y_) =
        clamp world.toWorld (actor.x_, actor.y_) ∧
      OnMap (world.correctpos actor).x_ (world.correctpos actor).y_ := by
  have lenPositive : (0 : ℚ) ≤ world.len - 1 := by
    have atLeast : ((1 : Int) : ℚ) ≤ world.len := by exact_mod_cast hasRoom.1
    push_cast at atLeast
    linarith
  have widPositive : (0 : ℚ) ≤ world.wid - 1 := by
    have atLeast : ((1 : Int) : ℚ) ≤ world.wid := by exact_mod_cast hasRoom.2
    push_cast at atLeast
    linarith
  have lenUpper : (world.len : ℚ) ≤ 32767 := by exact_mod_cast world.lenInt16.2
  have widUpper : (world.wid : ℚ) ≤ 32767 := by exact_mod_cast world.widInt16.2
  have x : (world.correctpos actor).x_ = max 0 (min actor.x_ (world.len - 1)) := by
    rw [← clamp_eq lenPositive]
    simp only [ActorWorld.correctpos, apply_ite Actor.x_, ite_self]
  have y : (world.correctpos actor).y_ = max 0 (min actor.y_ (world.wid - 1)) := by
    rw [← clamp_eq widPositive]
    simp only [ActorWorld.correctpos, apply_ite Actor.y_, ite_self]
  refine ⟨by rw [x, y, clamp], ?_⟩
  rw [x, y]
  refine ⟨le_max_left _ _, ?_, le_max_left _ _, ?_⟩
  · exact max_le (by norm_num) ((min_le_right _ _).trans (by linarith))
  · exact max_le (by norm_num) ((min_le_right _ _).trans (by linarith))

theorem moved_spec {world : ActorWorld} (hasRoom : HasRoom world.toWorld) (actor : Actor)
    (fx fy : ℚ) (dx dy : Int) :
    ((world.moved actor fx fy dx dy).x_, (world.moved actor fx fy dx dy).y_) =
        clamp world.toWorld (fx, fy) ∧
      OnMap (world.moved actor fx fy dx dy).x_ (world.moved actor fx fy dx dy).y_ :=
  correctpos_spec hasRoom { actor with x_ := fx, y_ := fy, dx_ := dx, dy_ := dy }

/-- The cells of the living actors. -/
def placeOf (actors : Int → Option Actor) (id : Int) : Option Pos :=
  (actors id).map fun actor => cellOf actor.x_ actor.y_

theorem placeOf_update (actors : Int → Option Actor) (id : Int) (actor : Option Actor) :
    placeOf (Function.update actors id actor) =
      Function.update (placeOf actors) id (actor.map fun actor => cellOf actor.x_ actor.y_) := by
  funext other
  by_cases same : other = id
  · subst same
    simp [placeOf]
  · simp [placeOf, same]

/-- What the calls preserve. -/
structure Placed (world : ActorWorld) (given : Int → Option (ℚ × ℚ)) : Prop where
  room : HasRoom world.toWorld
  clamped : ∀ id, (world.actor_ id).map (fun actor => (actor.x_, actor.y_)) =
    (given id).map (clamp world.toWorld)
  onMap : ∀ id actor, world.actor_ id = some actor → OnMap actor.x_ actor.y_
  places : world.aoi_.aoi_.Places (placeOf world.actor_)

section Steps

variable {world : ActorWorld} {given : Int → Option (ℚ × ℚ)}

theorem placed_create (len wid : Int) (lenInt16 : -32768 ≤ len ∧ len ≤ 32767)
    (widInt16 : -32768 ≤ wid ∧ wid ≤ 32767) (dirs : Dirs) (room : 1 ≤ len ∧ 1 ≤ wid) :
    Placed (ActorWorld.create len wid lenInt16 widInt16 dirs) fun _ => none :=
  ⟨room, fun _ => rfl, by simp [ActorWorld.create], CellIndex.places_empty⟩

theorem Placed.given_eq_none (placed : Placed world given) {id : Int} :
    given id = none ↔ world.actor_ id = none := by
  have clamped := placed.clamped id
  cases known : given id <;> cases live : world.actor_ id <;> simp_all

/-- An actor put on a clamped position. -/
theorem Placed.update (placed : Placed world given) (id : Int) {next : Actor}
    {position : ℚ × ℚ} (clamps : (next.x_, next.y_) = clamp world.toWorld position)
    (onMap : OnMap next.x_ next.y_) :
    (∀ other, (Function.update world.actor_ id (some next) other).map
        (fun actor => (actor.x_, actor.y_)) =
      (Function.update given id (some position) other).map (clamp world.toWorld)) ∧
    ∀ other found, Function.update world.actor_ id (some next) other = some found →
      OnMap found.x_ found.y_ := by
  constructor
  · intro other
    by_cases same : other = id
    · subst same
      simpa using clamps
    · simpa [same] using placed.clamped other
  · intro other found isFound
    by_cases same : other = id
    · subst same
      obtain rfl : next = found := by simpa using isFound
      exact onMap
    · exact placed.onMap other found (by simpa [same] using isFound)

theorem Placed.addactor (placed : Placed world given) (id : Int) (actor : Actor) :
    Placed (world.addactor id actor) (givenStep given (.addactor id actor)) := by
  cases live : world.actor_ id with
  | some old =>
      have known : given id ≠ none := fun missing => by
        simp [placed.given_eq_none.mp missing] at live
      obtain ⟨position, isGiven⟩ := Option.ne_none_iff_exists'.mp known
      simpa only [ActorWorld.addactor, live, givenStep, isGiven] using placed
  | none =>
      have unknown := placed.given_eq_none.mpr live
      obtain ⟨clamps, onMap⟩ := correctpos_spec placed.room actor
      obtain ⟨clamped, allOnMap⟩ := placed.update id clamps onMap
      simp only [ActorWorld.addactor, live, givenStep, unknown]
      refine ⟨placed.room, clamped, allOnMap, ?_⟩
      rw [placeOf_update, Aoi.add, gridOf_eq onMap]
      exact placed.places.insertAt _ (by simp [placeOf, live])

theorem Placed.delactor (placed : Placed world given) (id : Int) :
    Placed (world.delactor id) (givenStep given (.delactor id)) := by
  cases live : world.actor_ id with
  | none =>
      have unknown := placed.given_eq_none.mpr live
      have same : Function.update given id none = given := by
        rw [← unknown, Function.update_eq_self]
      simpa only [ActorWorld.delactor, live, givenStep, same] using placed
  | some actor =>
      simp only [ActorWorld.delactor, live, givenStep]
      refine ⟨placed.room, ?_, ?_, ?_⟩
      · intro other
        by_cases same : other = id
        · subst same
          simp
        · simpa [same] using placed.clamped other
      · intro other found isFound
        by_cases same : other = id
        · simp [same] at isFound
        · exact placed.onMap other found (by simpa [same] using isFound)
      · rw [placeOf_update, Aoi.del, gridOf_eq (placed.onMap id actor live)]
        exact placed.places.eraseAt (by simp [placeOf, live])

/-- Deleting an actor and adding it again keeps the grid exact. -/
theorem Placed.setpos (placed : Placed world given) (id : Int) (fx fy : ℚ) (dx dy : Int) :
    Placed (world.setpos id fx fy dx dy) (givenStep given (.setpos id fx fy dx dy)) := by
  cases live : world.actor_ id with
  | none =>
      have unknown := placed.given_eq_none.mpr live
      simpa only [ActorWorld.setpos, live, givenStep, unknown] using placed
  | some actor =>
      have known : given id ≠ none := fun missing => by
        simp [placed.given_eq_none.mp missing] at live
      obtain ⟨position, isGiven⟩ := Option.ne_none_iff_exists'.mp known
      obtain ⟨clamps, onMap⟩ := moved_spec placed.room actor fx fy dx dy
      obtain ⟨clamped, allOnMap⟩ := placed.update id clamps onMap
      have here : placeOf world.actor_ id = some (cellOf actor.x_ actor.y_) := by
        simp [placeOf, live]
      have erased := placed.places.eraseAt here
      have inserted := erased.insertAt
        (cellOf (world.moved actor fx fy dx dy).x_ (world.moved actor fx fy dx dy).y_)
        (Function.update_self id none (placeOf world.actor_))
      simp only [ActorWorld.setpos, live, givenStep, isGiven]
      refine ⟨placed.room, clamped, allOnMap, ?_⟩
      rw [placeOf_update, Aoi.add, Aoi.del, gridOf_eq onMap,
        gridOf_eq (placed.onMap id actor live)]
      simpa using inserted

theorem Placed.step (placed : Placed world given) (event : Event) :
    Placed (world.step event) (givenStep given event) := by
  cases event with
  | addactor id actor => exact placed.addactor id actor
  | delactor id => exact placed.delactor id
  | setpos id fx fy dx dy => exact placed.setpos id fx fy dx dy

theorem Placed.run (placed : Placed world given) (events : List Event) :
    Placed (world.run events) (events.foldl givenStep given) := by
  induction events generalizing world given with
  | nil => exact placed
  | cons event events ih => exact ih (placed.step event)

theorem Placed.exact (placed : Placed world given) : Exact world given := by
  refine ⟨placed.clamped, ?_, placed.places.notEmpty⟩
  intro g id
  rw [placed.places.holds, placeOf, Option.map_eq_some_iff]

theorem Placed.reports (placed : Placed world given) {id : Int} {actor : Actor}
    (live : world.actor_ id = some actor) (fx fy : ℚ) (dx dy : Int) {listed : Pos → List Int}
    (lists : Lists (world.setpos id fx fy dx dy).aoi_.aoi_ listed) :
    ReportsMove (world.setpos id fx fy dx dy).aoi_.aoi_ id (cellOf actor.x_ actor.y_)
      (cellOf (clamp world.toWorld (fx, fy)).1 (clamp world.toWorld (fx, fy)).2)
      (world.setposDiff id fx fy dx dy listed).1 (world.setposDiff id fx fy dx dy listed).2 := by
  have before := placed.onMap id actor live
  obtain ⟨clamps, behind⟩ := moved_spec placed.room actor fx fy dx dy
  have places := (placed.setpos id fx fy dx dy).places
  have reports := Aoi.reportsMove_diff places lists (inGrid_positionOf before)
    (inGrid_positionOf behind) id
  rw [positionOf_div before, positionOf_div behind] at reports
  rw [← clamps]
  simpa only [ActorWorld.setposDiff, live] using reports

end Steps

/-- In every state a world reaches, the actors stand on the clamped positions they
were given last, each is found in the cell of its position alone, no cell is
empty, and the next move of an actor reports exactly the actors that appear
around its new cell and those that disappear around its old one. -/
theorem grid_exact (len wid : Int) (lenInt16 : -32768 ≤ len ∧ len ≤ 32767)
    (widInt16 : -32768 ≤ wid ∧ wid ≤ 32767) (dirs : Dirs) (room : 1 ≤ len ∧ 1 ≤ wid)
    (events : List Event) :
    let world := (ActorWorld.create len wid lenInt16 widInt16 dirs).run events
    Exact world (givenAfter events) ∧
      ∀ id actor, world.actor_ id = some actor → ∀ (fx fy : ℚ) (dx dy : Int) listed,
        Lists (world.setpos id fx fy dx dy).aoi_.aoi_ listed →
        ReportsMove (world.setpos id fx fy dx dy).aoi_.aoi_ id (cellOf actor.x_ actor.y_)
          (cellOf (clamp world.toWorld (fx, fy)).1 (clamp world.toWorld (fx, fy)).2)
          (world.setposDiff id fx fy dx dy listed).1
          (world.setposDiff id fx fy dx dy listed).2 := by
  have placed := (placed_create len wid lenInt16 widInt16 dirs room).run events
  exact ⟨placed.exact, fun id actor live fx fy dx dy listed lists =>
    placed.reports live fx fy dx dy lists⟩

theorem lists_toList (index : CellIndex Int Pos) :
    Lists index fun g => ((index g).getD ∅).toList := by
  intro g ids found
  simp only [found, Option.getD_some]
  exact ⟨Finset.nodup_toList ids, fun id => Finset.mem_toList⟩

/-- Two actors, one of which moves towards the other. -/
theorem grid_exact_meeting :
    let dirs : Dirs := ⟨[⟨0, 0⟩, ⟨-1, 0⟩, ⟨0, -1⟩, ⟨0, 1⟩, ⟨1, 0⟩, ⟨-1, -1⟩, ⟨-1, 1⟩, ⟨1, -1⟩,
      ⟨1, 1⟩], by decide, by decide⟩
    let world := (ActorWorld.create 40 40 (by decide) (by decide) dirs).run
      [.addactor 1 ⟨1, 5, 5, 0, 1, 0⟩, .addactor 2 ⟨2, 35, 5, 0, 1, 0⟩]
    ∃ actor, world.actor_ 1 = some actor ∧
      ReportsMove (world.setpos 1 (51 / 2) 5 0 1).aoi_.aoi_ 1 (cellOf actor.x_ actor.y_)
        (cellOf (clamp world.toWorld (51 / 2, 5)).1 (clamp world.toWorld (51 / 2, 5)).2)
        (world.setposDiff 1 (51 / 2) 5 0 1 fun g =>
          (((world.setpos 1 (51 / 2) 5 0 1).aoi_.aoi_ g).getD ∅).toList).1
        (world.setposDiff 1 (51 / 2) 5 0 1 fun g =>
          (((world.setpos 1 (51 / 2) 5 0 1).aoi_.aoi_ g).getD ∅).toList).2 := by
  intro dirs world
  obtain ⟨actor, live⟩ : ∃ actor, world.actor_ 1 = some actor := ⟨_, rfl⟩
  exact ⟨actor, live, (grid_exact 40 40 (by decide) (by decide) dirs (by decide) _).2 1 actor live
    (51 / 2) 5 0 1 _ (lists_toList _)⟩

end SkillWorld

end LuaServer
