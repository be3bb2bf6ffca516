import LuaServer.SlgMap

/-!
# View deltas reproduce the views

The owner of a view keeps a set of ids and changes it only as it is told.  The
sorted list the world keeps for the view is always this set, so the reported
differences bring the set up to date and name no id in vain.  The visions of
the new map behave in the same way.
-/

namespace LuaServer

namespace Slg

open SortedDifferences

/-- The sets the owners of the views keep. -/
abbrev Held := Int → Finset Int

namespace Held

/-- An owner is told a delta. -/
def tell (held : Held) (delta : Delta) : Held :=
  Function.update held delta.id (follow (held delta.id) delta.adds delta.dels)

theorem foldl_tell_of_not_mem {deltas : List Delta} {vid : Int} (held : Held)
    (untold : vid ∉ deltas.map Delta.id) : deltas.foldl tell held vid = held vid := by
  induction deltas generalizing held with
  | nil => rfl
  | cons delta deltas ih =>
      rw [List.map_cons, List.mem_cons, not_or] at untold
      rw [List.foldl_cons, ih _ untold.2, tell, Function.update_of_ne untold.1]

/-- Owners are told at most one delta each. -/
theorem foldl_tell_of_mem {deltas : List Delta} {delta : Delta} (held : Held)
    (distinct : (deltas.map Delta.id).Nodup) (member : delta ∈ deltas) :
    deltas.foldl tell held delta.id = follow (held delta.id) delta.adds delta.dels := by
  induction deltas generalizing held with
  | nil => exact absurd member List.not_mem_nil
  | cons head deltas ih =>
      rw [List.map_cons, List.nodup_cons] at distinct
      rw [List.foldl_cons]
      rcases List.mem_cons.mp member with rfl | later
      · rw [foldl_tell_of_not_mem _ distinct.1, tell, Function.update_self]
      · have other : delta.id ≠ head.id := fun same =>
          distinct.1 (same ▸ List.mem_map.mpr ⟨delta, later, rfl⟩)
        rw [ih _ distinct.2 later, tell, Function.update_of_ne other]

end Held

/-- A delta names no id in vain: what it adds is not held and what it deletes is. -/
structure Honest (held : Finset Int) (delta : Delta) : Prop where
  adds : ∀ id ∈ delta.adds, id ∉ held
  dels : ∀ id ∈ delta.dels, id ∈ held
  addsNodup : delta.adds.Nodup
  delsNodup : delta.dels.Nodup

section Lists

variable {old new : List Int}

theorem honest_setDifference (vid : Int) (oldSorted : old.Pairwise (· < ·))
    (newSorted : new.Pairwise (· < ·)) :
    Honest old.toFinset ⟨vid, setDifference new old, setDifference old new⟩ where
  adds := fun id member => by
    rw [List.mem_toFinset]
    exact ((mem_setDifference newSorted oldSorted).mp member).2
  dels := fun id member => by
    rw [List.mem_toFinset]
    exact ((mem_setDifference oldSorted newSorted).mp member).1
  addsNodup := (newSorted.imp fun less => less.ne).sublist (setDifference_sublist new old)
  delsNodup := (oldSorted.imp fun less => less.ne).sublist (setDifference_sublist old new)

theorem pairwise_insertionSort_ids {ids : List Int} (distinct : ids.Nodup) :
    (ids.insertionSort (· ≤ ·)).Pairwise (· < ·) := by
  have sorted := List.pairwise_insertionSort (· ≤ ·) ids
  have nodup := (List.perm_insertionSort (· ≤ ·) ids).nodup_iff.mpr distinct
  exact sorted.imp₂ (fun _ _ upTo apart => lt_of_le_of_ne upTo apart) nodup

variable {Value : Type} (table : Table Value) (keep : Int × Value → Bool)

theorem nodup_ids : ((table.elements.filter keep).map Prod.fst).Nodup := by
  rw [List.Nodup, List.pairwise_map]
  exact (table.sorted.filter keep).imp fun less => less.ne

theorem mem_sorted_ids {id : Int} :
    id ∈ ((table.elements.filter keep).map Prod.fst).insertionSort (· ≤ ·) ↔
      ∃ value, (id, value) ∈ table ∧ keep (id, value) := by
  rw [List.mem_insertionSort]
  simp only [List.mem_map, List.mem_filter, Prod.exists, exists_and_right, exists_eq_right]
  rfl

end Lists

/-- What the calls have placed: the ends of a segment or the corners of a rectangle
for every id that has some. -/
abbrev Placed := Int → Option Corners

section Placing

variable {Value : Type} {table : Table Value} {ends : Value → Pos × Pos} {placed : Placed}
  {id : Int}

/-- A table shows what was placed, as far as its values tell. -/
def Shows (table : Table Value) (ends : Value → Pos × Pos) (placed : Placed) : Prop :=
  ∀ id both, (∃ value, (id, value) ∈ table ∧ ends value = both) ↔
    ∃ corners, placed id = some corners ∧ (corners.first, corners.second) = both

theorem shows_empty : Shows (KeySorted.empty _) ends fun _ => none := by
  intro id both
  simp

theorem Shows.find_eq_none_iff (shows_ : Shows table ends placed) (id : Int) :
    table.find id = none ↔ placed id = none := by
  rw [KeySorted.find_eq_none, Option.eq_none_iff_forall_ne_some]
  constructor
  · intro missing corners isPlaced
    obtain ⟨value, member, -⟩ := (shows_ id _).mpr ⟨corners, isPlaced, rfl⟩
    exact missing (id, value) member rfl
  · rintro missing ⟨_, value⟩ member rfl
    obtain ⟨corners, isPlaced, -⟩ := (shows_ _ (ends value)).mp ⟨value, member, rfl⟩
    exact missing corners isPlaced

theorem Shows.put (shows_ : Shows table ends placed) {value : Value} {corners : Corners}
    (same : ends value = (corners.first, corners.second)) :
    Shows (table.put (id, value)) ends (Function.update placed id (some corners)) := by
  intro other both
  by_cases isId : other = id
  · subst isId
    simp [KeySorted.mem_put, same]
  · rw [Function.update_of_ne isId, ← shows_ other both]
    simp [KeySorted.mem_put, isId]

theorem Shows.drop (shows_ : Shows table ends placed) :
    Shows (table.drop id) ends (Function.update placed id none) := by
  intro other both
  by_cases isId : other = id
  · subst isId
    simp [KeySorted.mem_drop]
  · rw [Function.update_of_ne isId, ← shows_ other both]
    simp [KeySorted.mem_drop, isId]

/-- Values may change as long as their ends stay. -/
theorem Shows.mapValues (shows_ : Shows table ends placed) {change : Int → Value → Value}
    (same : ∀ id value, ends (change id value) = ends value) :
    Shows (table.mapValues change) ends placed := by
  intro id both
  rw [← shows_ id both]
  constructor
  · rintro ⟨_, member, rfl⟩
    obtain ⟨value, old, rfl⟩ := KeySorted.mem_mapValues.mp member
    exact ⟨value, old, (same id value).symm⟩
  · rintro ⟨value, member, rfl⟩
    exact ⟨_, KeySorted.mem_mapValues.mpr ⟨value, member, rfl⟩, same id value⟩

theorem Shows.exists_iff (shows_ : Shows table ends placed) (sees : Pos × Pos → Prop) :
    (∃ value, (id, value) ∈ table ∧ sees (ends value)) ↔
      ∃ corners, placed id = some corners ∧ sees (corners.first, corners.second) := by
  constructor
  · rintro ⟨value, member, isSeen⟩
    obtain ⟨corners, isPlaced, same⟩ := (shows_ id _).mp ⟨value, member, rfl⟩
    exact ⟨corners, isPlaced, same ▸ isSeen⟩
  · rintro ⟨corners, isPlaced, isSeen⟩
    obtain ⟨value, member, same⟩ := (shows_ id _).mpr ⟨corners, isPlaced, rfl⟩
    exact ⟨value, member, same ▸ isSeen⟩

end Placing

/-- The ends that `inview` looks at. -/
def Troop.ends (troop : Troop) : Pos × Pos :=
  (troop.n_, troop.e_)

def View.ends (view : View) : Pos × Pos :=
  (view.bl_, view.tr_)

def March.ends (march : March) : Pos × Pos :=
  (march.cur_, march.end_)

def Vision.ends (vision : Vision) : Pos × Pos :=
  (vision.bl_, vision.tr_)

/-- A call of Lua on the world. -/
inductive WorldEvent where
  | settroop (id : Int) (corners : Option Corners)
  | setview (id : Int) (corners : Option Corners)
  | troopview

/-- The world, what the calls have placed there, and the sets of the owners of its
views. -/
structure Watched where
  world : World
  troops : Placed
  views : Placed
  held : Held

namespace Watched

/-- A call replaces or erases what was placed for its id.  An owner starts with the
empty set when its view is created. -/
def step (watched : Watched) : WorldEvent → Watched
  | .settroop id corners =>
      { watched with
        world := watched.world.settroop id corners
        troops := Function.update watched.troops id corners }
  | .setview id corners =>
      { watched with
        world := watched.world.setview id corners
        views := Function.update watched.views id corners
        held :=
          if (watched.views id).isNone then Function.update watched.held id ∅
          else watched.held }
  | .troopview =>
      { watched with
        world := watched.world.troopView.1
        held := watched.world.troopView.2.foldl Held.tell watched.held }

def run (events : List WorldEvent) : Watched :=
  events.foldl step ⟨World.create, fun _ => none, fun _ => none, fun _ => ∅⟩

/-- The tables hold what was placed, and the list the world keeps for a view is the
set its owner keeps. -/
structure Faithful (watched : Watched) : Prop where
  troops : Shows watched.world.troop_ Troop.ends watched.troops
  views : Shows watched.world.view_ View.ends watched.views
  lists : ∀ vid view, (vid, view) ∈ watched.world.view_ →
    view.troop_.Pairwise (· < ·) ∧ watched.held vid = view.troop_.toFinset

end Watched

namespace World

variable {world : World} {vid : Int} {view : View}

theorem ntroop_sorted (world : World) (view : View) : (world.ntroop view).Pairwise (· < ·) :=
  pairwise_insertionSort_ids (nodup_ids _ _)

theorem mem_ntroop {id : Int} : id ∈ world.ntroop view ↔
    ∃ troop, (id, troop) ∈ world.troop_ ∧ inview troop.n_ troop.e_ view.bl_ view.tr_ :=
  mem_sorted_ids _ _

theorem mem_view_troopView : (vid, view) ∈ world.troopView.1.view_ ↔
    ∃ old, (vid, old) ∈ world.view_ ∧ { old with troop_ := world.ntroop old } = view :=
  KeySorted.mem_mapValues

theorem mem_troopView {delta : Delta} : delta ∈ world.troopView.2 ↔
    (∃ vid view, (vid, view) ∈ world.view_ ∧ world.delta vid view = delta) ∧
      ¬(delta.adds = [] ∧ delta.dels = []) := by
  simp only [troopView, List.mem_filter, List.mem_map, Prod.exists, List.isEmpty_iff,
    decide_eq_true_eq]
  rfl

theorem nodup_troopView (world : World) : (world.troopView.2.map Delta.id).Nodup := by
  have all : ((world.view_.elements.map fun entry => world.delta entry.1 entry.2).map
      Delta.id).Nodup := by
    rw [List.map_map, List.Nodup, List.pairwise_map]
    exact world.view_.sorted.imp fun less => less.ne
  exact all.sublist (List.filter_sublist.map Delta.id)

end World

namespace Watched

variable {watched : Watched} {vid : Int} {view : View}

/-- The troops that a view sees after a call of `troopview` are those its owner
holds. -/
theorem Faithful.held_troopview (faithful : watched.Faithful)
    (member : (vid, view) ∈ watched.world.view_) :
    (watched.step .troopview).held vid = (watched.world.ntroop view).toFinset := by
  obtain ⟨sorted, held⟩ := faithful.lists vid view member
  have newSorted := watched.world.ntroop_sorted view
  change watched.world.troopView.2.foldl Held.tell watched.held vid = _
  by_cases told : watched.world.delta vid view ∈ watched.world.troopView.2
  · have tells := Held.foldl_tell_of_mem watched.held watched.world.nodup_troopView told
    change _ = follow (watched.held vid) _ _ at tells
    rw [held] at tells
    exact tells.trans (follow_setDifference sorted newSorted)
  · have untold : vid ∉ watched.world.troopView.2.map Delta.id := by
      intro inIds
      obtain ⟨delta, inDeltas, isVid⟩ := List.mem_map.mp inIds
      obtain ⟨⟨other, otherView, otherMember, rfl⟩, -⟩ := World.mem_troopView.mp inDeltas
      obtain rfl : other = vid := isVid
      obtain ⟨-, rfl⟩ := Prod.mk.inj (KeySorted.eq_of_key_eq otherMember member rfl)
      exact told inDeltas
    have nothing : (watched.world.delta vid view).adds = [] ∧
        (watched.world.delta vid view).dels = [] := by
      by_contra something
      exact told (World.mem_troopView.mpr ⟨⟨vid, view, member, rfl⟩, something⟩)
    rw [Held.foldl_tell_of_not_mem _ untold, held]
    exact (toFinset_eq_iff sorted newSorted).mpr nothing

theorem held_setview_of_ne {id : Int} (corners : Option Corners) (other : vid ≠ id) :
    (watched.step (.setview id corners)).held vid = watched.held vid := by
  simp only [Watched.step]
  split
  · exact Function.update_of_ne other _ _
  · rfl

/-- A new view starts empty and a moved one keeps its list. -/
theorem Faithful.lists_setview (faithful : watched.Faithful) (id : Int)
    (corners : Option Corners)
    (member : (vid, view) ∈ (watched.step (.setview id corners)).world.view_) :
    view.troop_.Pairwise (· < ·) ∧
      (watched.step (.setview id corners)).held vid = view.troop_.toFinset := by
  cases corners with
  | none =>
      obtain ⟨old, other⟩ := KeySorted.mem_drop.mp member
      rw [held_setview_of_ne none other]
      exact faithful.lists vid view old
  | some corners =>
      rcases KeySorted.mem_put.mp member with same | ⟨old, other⟩
      · obtain ⟨rfl, rfl⟩ := Prod.mk.inj same
        have created := faithful.views.find_eq_none_iff vid
        cases found : watched.world.view_.find vid with
        | none => simp [Watched.step, created.mp found]
        | some entry =>
            obtain ⟨entryIn, rfl⟩ := KeySorted.find_eq_some.mp found
            have kept : (watched.views entry.1).isNone = false := by
              rw [← Bool.not_eq_true, Option.isNone_iff_eq_none, ← created, found]
              exact Option.some_ne_none entry
            simpa [Watched.step, kept] using faithful.lists entry.1 entry.2 entryIn
      · rw [held_setview_of_ne _ other]
        exact faithful.lists vid view old

theorem Faithful.step (faithful : watched.Faithful) (event : WorldEvent) :
    (watched.step event).Faithful := by
  cases event with
  | settroop id corners =>
      cases corners with
      | none => exact { faithful with troops := faithful.troops.drop }
      | some corners => exact { faithful with troops := faithful.troops.put rfl }
  | setview id corners =>
      refine ⟨?_, ?_, fun vid view => faithful.lists_setview id corners⟩
      · cases corners <;> exact faithful.troops
      · cases corners with
        | none => exact faithful.views.drop
        | some corners => exact faithful.views.put rfl
  | troopview =>
      refine ⟨faithful.troops, faithful.views.mapValues fun _ _ => rfl, ?_⟩
      intro vid view member
      obtain ⟨old, oldMember, rfl⟩ := World.mem_view_troopView.mp member
      exact ⟨watched.world.ntroop_sorted old, faithful.held_troopview oldMember⟩

theorem faithful_foldl (faithful : watched.Faithful) (events : List WorldEvent) :
    (events.foldl Watched.step watched).Faithful := by
  induction events generalizing watched with
  | nil => exact faithful
  | cons event events ih => exact ih (faithful.step event)

theorem faithful_run (events : List WorldEvent) : (run events).Faithful :=
  faithful_foldl ⟨shows_empty, shows_empty,
    fun _ _ member => absurd member KeySorted.not_mem_empty⟩ events

end Watched

/-- A call of Lua or C++ on the new map. -/
inductive MapEvent where
  | setVision (id : Int) (corners : Corners)
  | delVision (id : Int)
  | addMarch (id : Int) (corners : Corners)
  | delMarch (id : Int)
  | clearMarch
  | visionDiff (vid : Int)

/-- The map, what the calls have placed there, and the sets of the owners of its
visions. -/
structure WatchedMap where
  map : Map
  marches : Placed
  visions : Placed
  held : Held

namespace WatchedMap

/-- A call replaces or erases what was placed for its id.  An owner starts with the
empty set when its vision is created. -/
def step (watched : WatchedMap) : MapEvent → WatchedMap
  | .setVision id corners =>
      { watched with
        map := Lmap.setVision watched.map id corners
        visions := Function.update watched.visions id (some corners)
        held :=
          if (watched.visions id).isNone then Function.update watched.held id ∅
          else watched.held }
  | .delVision id =>
      { watched with
        map := watched.map.delVision id
        visions := Function.update watched.visions id none }
  | .addMarch id corners =>
      { watched with
        map := Lmap.addMarch watched.map id corners
        marches := Function.update watched.marches id (some corners) }
  | .delMarch id =>
      { watched with
        map := watched.map.delMarch id
        marches := Function.update watched.marches id none }
  | .clearMarch => { watched with map := watched.map.clearMarch, marches := fun _ => none }
  | .visionDiff vid =>
      { watched with
        map := (watched.map.visionDiff vid).1
        held := watched.held.tell (watched.map.visionDiff vid).2 }

def run (len wid : Int) (events : List MapEvent) : WatchedMap :=
  events.foldl step ⟨Map.create len wid, fun _ => none, fun _ => none, fun _ => ∅⟩

/-- The tables hold what was placed, and the list the map keeps for a vision is the
set its owner keeps. -/
structure Faithful (watched : WatchedMap) : Prop where
  marches : Shows watched.map.march_ March.ends watched.marches
  visions : Shows watched.map.vision_ Vision.ends watched.visions
  lists : ∀ vid vision, (vid, vision) ∈ watched.map.vision_ →
    vision.march_.Pairwise (· < ·) ∧ watched.held vid = vision.march_.toFinset

end WatchedMap

namespace Map

variable {map : Map} {vid : Int} {vision : Vision}

theorem mem_delVision {id : Int} : (vid, vision) ∈ (map.delVision id).vision_ ↔
    (vid, vision) ∈ map.vision_ ∧ vid ≠ id := by
  simp only [delVision]
  split
  next missing =>
    refine (and_iff_left_of_imp fun member => ?_).symm
    exact KeySorted.find_eq_none.mp missing (vid, vision) member
  next => exact KeySorted.mem_drop

/-- The list of a vision, empty when there is none. -/
def marchesOf (map : Map) (id : Int) : List Int :=
  match map.vision_.find id with
  | none => []
  | some (_, vision) => vision.march_

theorem mem_setVision {id : Int} {corners : Corners} :
    (vid, vision) ∈ (Lmap.setVision map id corners).vision_ ↔
      (vid, vision) = (id, ⟨id, corners.first, corners.second, map.marchesOf id⟩) ∨
        ((vid, vision) ∈ map.vision_ ∧ vid ≠ id) := by
  simp only [Lmap.setVision, setVision, marchesOf]
  cases found : map.vision_.find id with
  | none => exact KeySorted.mem_put
  | some entry =>
      simp only [KeySorted.mem_put, mem_delVision]
      tauto

theorem march_delVision (map : Map) (id : Int) : (map.delVision id).march_ = map.march_ := by
  simp only [delVision]
  split <;> rfl

theorem march_setVision (map : Map) (id : Int) (corners : Corners) :
    (Lmap.setVision map id corners).march_ = map.march_ := by
  simp only [Lmap.setVision, setVision]
  split
  · rfl
  · exact march_delVision map id

theorem vision_delVision (map : Map) (id : Int) :
    (map.delVision id).vision_ = map.vision_.drop id :=
  KeySorted.eq_of_mem_iff fun _ => mem_delVision.trans KeySorted.mem_drop.symm

theorem vision_setVision (map : Map) (id : Int) (corners : Corners) :
    (Lmap.setVision map id corners).vision_ =
      map.vision_.put (id, ⟨id, corners.first, corners.second, map.marchesOf id⟩) :=
  KeySorted.eq_of_mem_iff fun _ => mem_setVision.trans KeySorted.mem_put.symm

theorem mem_visionMarch {id : Int} (member : (vid, vision) ∈ map.vision_) :
    id ∈ (map.visionMarch vid).insertionSort (· ≤ ·) ↔ ∃ march, (id, march) ∈ map.march_ ∧
      inview march.cur_ march.end_ vision.bl_ vision.tr_ := by
  have found := KeySorted.find_eq_some.mpr ⟨member, rfl⟩
  simp only [visionMarch, found]
  exact mem_sorted_ids _ _

theorem visionMarch_sorted (map : Map) (vid : Int) :
    ((map.visionMarch vid).insertionSort (· ≤ ·)).Pairwise (· < ·) := by
  apply pairwise_insertionSort_ids
  rw [visionMarch]
  split
  · exact List.nodup_nil
  · exact nodup_ids _ _

theorem visionDiff_of_mem (member : (vid, vision) ∈ map.vision_) :
    let new_ := (map.visionMarch vid).insertionSort (· ≤ ·)
    map.visionDiff vid =
      ({ map with vision_ := map.vision_.put (vid, { vision with march_ := new_ }) },
        ⟨vid, setDifference new_ vision.march_, setDifference vision.march_ new_⟩) := by
  have found := KeySorted.find_eq_some.mpr ⟨member, rfl⟩
  simp only [visionDiff, found]

end Map

namespace WatchedMap

variable {watched : WatchedMap} {vid : Int} {vision : Vision}

theorem held_setVision_of_ne {id : Int} (corners : Corners) (other : vid ≠ id) :
    (watched.step (.setVision id corners)).held vid = watched.held vid := by
  simp only [WatchedMap.step]
  split
  · exact Function.update_of_ne other _ _
  · rfl

theorem held_visionDiff_of_ne {id : Int} (other : vid ≠ id) :
    (watched.step (.visionDiff id)).held vid = watched.held vid := by
  simp only [WatchedMap.step, Held.tell, Map.visionDiff]
  split <;> exact Function.update_of_ne other _ _

/-- A new vision starts empty and a moved one keeps its list. -/
theorem Faithful.lists_setVision (faithful : watched.Faithful) (id : Int) (corners : Corners)
    (member : (vid, vision) ∈ (watched.step (.setVision id corners)).map.vision_) :
    vision.march_.Pairwise (· < ·) ∧
      (watched.step (.setVision id corners)).held vid = vision.march_.toFinset := by
  rcases Map.mem_setVision.mp member with same | ⟨old, other⟩
  · obtain ⟨rfl, rfl⟩ := Prod.mk.inj same
    have created := faithful.visions.find_eq_none_iff vid
    cases found : watched.map.vision_.find vid with
    | none => simp [WatchedMap.step, Map.marchesOf, found, created.mp found]
    | some entry =>
        obtain ⟨entryIn, rfl⟩ := KeySorted.find_eq_some.mp found
        have kept : (watched.visions entry.1).isNone = false := by
          rw [← Bool.not_eq_true, Option.isNone_iff_eq_none, ← created, found]
          exact Option.some_ne_none entry
        simpa [WatchedMap.step, Map.marchesOf, found, kept] using
          faithful.lists entry.1 entry.2 entryIn
  · rw [held_setVision_of_ne corners other]
    exact faithful.lists vid vision old

/-- The owner of a vision holds the marches it sees after `vision_diff`. -/
theorem Faithful.held_visionDiff (faithful : watched.Faithful)
    (member : (vid, vision) ∈ watched.map.vision_) :
    (watched.step (.visionDiff vid)).held vid =
      ((watched.map.visionMarch vid).insertionSort (· ≤ ·)).toFinset := by
  obtain ⟨sorted, held⟩ := faithful.lists vid vision member
  simp only [WatchedMap.step, Map.visionDiff_of_mem member, Held.tell, Function.update_self, held]
  exact follow_setDifference sorted (watched.map.visionMarch_sorted vid)

theorem Faithful.visionDiff (faithful : watched.Faithful) (id : Int) :
    (watched.step (.visionDiff id)).Faithful := by
  cases found : watched.map.vision_.find id with
  | none =>
      have same : (watched.step (.visionDiff id)).map = watched.map := by
        simp [WatchedMap.step, Map.visionDiff, found]
      refine ⟨same ▸ faithful.marches, same ▸ faithful.visions, ?_⟩
      intro vid vision member
      rw [same] at member
      rw [held_visionDiff_of_ne (KeySorted.find_eq_none.mp found (vid, vision) member)]
      exact faithful.lists vid vision member
  | some entry =>
      obtain ⟨entryIn, rfl⟩ := KeySorted.find_eq_some.mp found
      have moved := Map.visionDiff_of_mem entryIn
      obtain ⟨corners, isPlaced, same⟩ :=
        (faithful.visions entry.1 entry.2.ends).mp ⟨entry.2, entryIn, rfl⟩
      refine ⟨?_, ?_, ?_⟩
      · simpa only [WatchedMap.step, moved] using faithful.marches
      · have replaced : Function.update watched.visions entry.1 (some corners) =
            watched.visions := by
          rw [← isPlaced, Function.update_eq_self]
        simp only [WatchedMap.step, moved]
        rw [← replaced]
        exact faithful.visions.put same.symm
      · intro vid vision member
        simp only [WatchedMap.step, moved, KeySorted.mem_put] at member
        rcases member with isNew | ⟨old, other⟩
        · obtain ⟨rfl, rfl⟩ := Prod.mk.inj isNew
          exact ⟨watched.map.visionMarch_sorted _, faithful.held_visionDiff entryIn⟩
        · rw [held_visionDiff_of_ne other]
          exact faithful.lists vid vision old

theorem Faithful.step (faithful : watched.Faithful) (event : MapEvent) :
    (watched.step event).Faithful := by
  cases event with
  | setVision id corners =>
      refine ⟨?_, ?_, fun vid vision => faithful.lists_setVision id corners⟩
      · change Shows (Lmap.setVision watched.map id corners).march_ _ _
        rw [Map.march_setVision]
        exact faithful.marches
      · change Shows (Lmap.setVision watched.map id corners).vision_ _ _
        rw [Map.vision_setVision]
        exact faithful.visions.put rfl
  | delVision id =>
      refine ⟨?_, ?_, fun vid vision member => ?_⟩
      · change Shows (watched.map.delVision id).march_ _ _
        rw [Map.march_delVision]
        exact faithful.marches
      · change Shows (watched.map.delVision id).vision_ _ _
        rw [Map.vision_delVision]
        exact faithful.visions.drop
      · exact faithful.lists vid vision (Map.mem_delVision.mp member).1
  | addMarch id corners => exact { faithful with marches := faithful.marches.put rfl }
  | delMarch id => exact { faithful with marches := faithful.marches.drop }
  | clearMarch => exact { faithful with marches := shows_empty }
  | visionDiff vid => exact faithful.visionDiff vid

theorem faithful_foldl (faithful : watched.Faithful) (events : List MapEvent) :
    (events.foldl WatchedMap.step watched).Faithful := by
  induction events generalizing watched with
  | nil => exact faithful
  | cons event events ih => exact ih (faithful.step event)

theorem faithful_run (len wid : Int) (events : List MapEvent) : (run len wid events).Faithful :=
  faithful_foldl ⟨shows_empty, shows_empty,
    fun _ _ member => absurd member KeySorted.not_mem_empty⟩ events

end WatchedMap

/-- What a call that reports deltas promises: every owner is told once at most
and only of a change, no id in vain. -/
structure Reports (before after : Held) (deltas : List Delta) : Prop where
  distinct : (deltas.map Delta.id).Nodup
  honest : ∀ delta ∈ deltas, Honest (before delta.id) delta
  changed : ∀ delta ∈ deltas, after delta.id ≠ before delta.id

/-- A call of `troopview` reports what has changed. -/
theorem Watched.Faithful.reports {watched : Watched} (faithful : watched.Faithful) :
    Reports watched.held (watched.step .troopview).held watched.world.troopView.2 := by
  refine ⟨watched.world.nodup_troopView, ?_, ?_⟩
  · intro delta member
    obtain ⟨⟨vid, view, viewIn, rfl⟩, -⟩ := World.mem_troopView.mp member
    obtain ⟨sorted, held⟩ := faithful.lists vid view viewIn
    change Honest (watched.held vid) _
    rw [held]
    exact honest_setDifference vid sorted (watched.world.ntroop_sorted view)
  · intro delta member same
    obtain ⟨⟨vid, view, viewIn, rfl⟩, something⟩ := World.mem_troopView.mp member
    obtain ⟨sorted, held⟩ := faithful.lists vid view viewIn
    change (watched.step .troopview).held vid = watched.held vid at same
    rw [faithful.held_troopview viewIn, held] at same
    exact something ((toFinset_eq_iff sorted (watched.world.ntroop_sorted view)).mp same.symm)

/-- Right after `troopview` the owner of a view holds the troops placed inside it. -/
theorem Watched.Faithful.mem_held {watched : Watched} (faithful : watched.Faithful)
    {vid : Int} {rectangle : Corners}
    (isPlaced : (watched.step .troopview).views vid = some rectangle) (id : Int) :
    id ∈ (watched.step .troopview).held vid ↔
      ∃ segment, (watched.step .troopview).troops id = some segment ∧
        inview segment.first segment.second rectangle.first rectangle.second := by
  obtain ⟨view, member, same⟩ := (faithful.views vid _).mpr ⟨rectangle, isPlaced, rfl⟩
  obtain ⟨first, second⟩ := Prod.mk.inj same
  rw [faithful.held_troopview member, List.mem_toFinset, World.mem_ntroop, ← first, ← second]
  exact faithful.troops.exists_iff fun ends => inview ends.1 ends.2 view.bl_ view.tr_

/-- A call of `vision_diff` reports what has changed, and nothing for an id without
a vision. -/
theorem WatchedMap.Faithful.honest {watched : WatchedMap} (faithful : watched.Faithful)
    (vid : Int) : Honest (watched.held vid) (watched.map.visionDiff vid).2 ∧
      ((watched.step (.visionDiff vid)).held vid = watched.held vid ↔
        (watched.map.visionDiff vid).2.adds = [] ∧
          (watched.map.visionDiff vid).2.dels = []) := by
  cases found : watched.map.vision_.find vid with
  | none =>
      have nothing : watched.map.visionDiff vid = (watched.map, ⟨vid, [], []⟩) := by
        simp [Map.visionDiff, found]
      constructor
      · rw [nothing]
        exact ⟨by simp, by simp, List.nodup_nil, List.nodup_nil⟩
      · simp [WatchedMap.step, nothing, Held.tell, follow]
  | some entry =>
      obtain ⟨entryIn, rfl⟩ := KeySorted.find_eq_some.mp found
      obtain ⟨sorted, held⟩ := faithful.lists entry.1 entry.2 entryIn
      have newSorted := watched.map.visionMarch_sorted entry.1
      rw [faithful.held_visionDiff entryIn, held, Map.visionDiff_of_mem entryIn]
      exact ⟨honest_setDifference _ sorted newSorted,
        eq_comm.trans (toFinset_eq_iff sorted newSorted)⟩

/-- Right after `vision_diff` the owner of the vision holds the marches placed inside it. -/
theorem WatchedMap.Faithful.mem_held {watched : WatchedMap} (faithful : watched.Faithful)
    {vid : Int} {rectangle : Corners}
    (isPlaced : (watched.step (.visionDiff vid)).visions vid = some rectangle) (id : Int) :
    id ∈ (watched.step (.visionDiff vid)).held vid ↔
      ∃ segment, (watched.step (.visionDiff vid)).marches id = some segment ∧
        inview segment.first segment.second rectangle.first rectangle.second := by
  obtain ⟨vision, member, same⟩ := (faithful.visions vid _).mpr ⟨rectangle, isPlaced, rfl⟩
  obtain ⟨first, second⟩ := Prod.mk.inj same
  rw [faithful.held_visionDiff member, List.mem_toFinset, Map.mem_visionMarch member,
    ← first, ← second]
  exact faithful.marches.exists_iff fun ends => inview ends.1 ends.2 vision.bl_ vision.tr_

/-- Right after every call of `troopview` the owner of each view that the calls have
left holds the ids of the troops they have left inside it, and the call reports what
has changed.  The same holds for a vision of the new map right after a call of
`vision_diff`. -/
theorem deltas_reproduce_views :
    (∀ events : List WorldEvent,
      let before := Watched.run events
      let after := Watched.run (events ++ [.troopview])
      (∀ vid rectangle, after.views vid = some rectangle → ∀ id, id ∈ after.held vid ↔
        ∃ segment, after.troops id = some segment ∧
          inview segment.first segment.second rectangle.first rectangle.second) ∧
      Reports before.held after.held before.world.troopView.2) ∧
    ∀ (len wid : Int) (events : List MapEvent) (vid : Int),
      let before := WatchedMap.run len wid events
      let after := WatchedMap.run len wid (events ++ [.visionDiff vid])
      (∀ rectangle, after.visions vid = some rectangle → ∀ id, id ∈ after.held vid ↔
        ∃ segment, after.marches id = some segment ∧
          inview segment.first segment.second rectangle.first rectangle.second) ∧
      Honest (before.held vid) (before.map.visionDiff vid).2 ∧
      (after.held vid = before.held vid ↔
        (before.map.visionDiff vid).2.adds = [] ∧ (before.map.visionDiff vid).2.dels = []) := by
  refine ⟨fun events => ?_, fun len wid events vid => ?_⟩
  · have faithful := Watched.faithful_run events
    simp only [Watched.run, List.foldl_concat]
    exact ⟨fun vid rectangle isPlaced id => faithful.mem_held isPlaced id, faithful.reports⟩
  · have faithful := WatchedMap.faithful_run len wid events
    simp only [WatchedMap.run, List.foldl_concat]
    exact ⟨fun rectangle isPlaced id => faithful.mem_held isPlaced id, faithful.honest vid⟩

section Moves

/-- A troop moves away, one is erased, and the view moves to the third. -/
def movedTroops : List WorldEvent :=
  [.settroop 1 (some (1, 1, 2, 2)), .settroop 2 (some (30, 30, 31, 31)),
    .settroop 3 (some (3, 3, 3, 3)), .setview 7 (some (0, 0, 5, 5)), .troopview,
    .settroop 1 (some (40, 40, 41, 41)), .settroop 3 none, .setview 7 (some (25, 25, 35, 35))]

/-- All marches but the last one are cleared, and the vision moves to it. -/
def movedMarches : List MapEvent :=
  [.addMarch 1 (1, 1, 2, 2), .addMarch 2 (3, 3, 3, 3), .setVision 7 (0, 0, 5, 5),
    .visionDiff 7, .delMarch 2, .addMarch 2 (26, 26, 27, 27), .clearMarch,
    .addMarch 3 (20, 20, 30, 30), .addMarch 4 (1, 1, 2, 2), .setVision 7 (25, 25, 35, 35)]

/-- Of two that are placed only one is seen. -/
theorem eq_singleton_of_placed {Place : Type} {held : Finset Int} {placed : Int → Option Place}
    {sees : Place → Prop} {hidden seen : Int} {away near : Place}
    (mem : ∀ id, id ∈ held ↔ ∃ place, placed id = some place ∧ sees place)
    (places : ∀ id, placed id = if id = hidden then some away
      else if id = seen then some near else none)
    (apart : seen ≠ hidden) (notSeen : ¬ sees away) (isSeen : sees near) : held = {seen} := by
  ext id
  rw [mem id, places, Finset.mem_singleton]
  split_ifs with first second
  · subst first
    refine iff_of_false ?_ apart.symm
    rintro ⟨place, ⟨⟩, sees⟩
    exact notSeen sees
  · exact iff_of_true ⟨near, rfl, isSeen⟩ second
  · exact iff_of_false (by simp) second

theorem deltas_reproduce_views_moved :
    (Watched.run (movedTroops ++ [.troopview])).held 7 = {2} ∧
      (WatchedMap.run 50 50 (movedMarches ++ [.visionDiff 7])).held 7 = {3} := by
  obtain ⟨views, visions⟩ := deltas_reproduce_views
  have troops := (views movedTroops).1 7 (25, 25, 35, 35) rfl
  have marches := (visions 50 50 movedMarches 7).1 (25, 25, 35, 35) rfl
  have placedTroops (id : Int) : (Watched.run (movedTroops ++ [.troopview])).troops id =
      if id = 1 then some (40, 40, 41, 41)
      else if id = 2 then some (30, 30, 31, 31)
      else none := by
    simp only [movedTroops, Watched.run, List.cons_append, List.nil_append, List.foldl_cons,
      List.foldl_nil, Watched.step, Function.update_apply]
    split_ifs <;> simp_all
  have placedMarches (id : Int) :
      (WatchedMap.run 50 50 (movedMarches ++ [.visionDiff 7])).marches id =
        if id = 4 then some (1, 1, 2, 2)
        else if id = 3 then some (20, 20, 30, 30)
        else none := by
    simp only [movedMarches, WatchedMap.run, List.cons_append, List.nil_append, List.foldl_cons,
      List.foldl_nil, WatchedMap.step, Function.update_apply]
  exact ⟨eq_singleton_of_placed troops placedTroops (by decide) (by decide) (by decide),
    eq_singleton_of_placed marches placedMarches (by decide) (by decide) (by decide)⟩

end Moves

end Slg

end LuaServer
