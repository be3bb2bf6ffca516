import LuaServer.CellIndexes
import LuaServer.SlgMap

/-!
# The index of the visions by their centers

The new map finds a vision through the cell in its center.  A vision that is set again is
first taken out of the cell of its old center and then put into that of the new one, so
the index holds each vision in the cell of its center alone, whatever the order of the
calls is.
-/

namespace LuaServer

namespace Slg

/-- A call on the visions of the map. -/
inductive VisionCall where
  | setVision (vision : Vision)
  | delVision (id : Int)
  | visionDiff (vid : Int)

namespace Map

def visionCall (map : Map) : VisionCall → Map
  | .setVision vision => map.setVision vision
  | .delVision id => map.delVision id
  | .visionDiff vid => (map.visionDiff vid).1

def runVisions (map : Map) (calls : List VisionCall) : Map :=
  calls.foldl visionCall map

/-- The ids of a cell are those of the visions with their center there, and no cell is
stored without ids. -/
structure CentersExact (map : Map) : Prop where
  exact_ : ∀ c id, (∃ set_, map.posVids_ c = some set_ ∧ id ∈ set_) ↔
    ∃ vision, (id, vision) ∈ map.vision_ ∧ vision.center = c
  notEmpty : ∀ c set_, map.posVids_ c = some set_ → set_.elements ≠ []

/-- The sets of `pos_vids_` as finite sets. -/
def vids (map : Map) : CellIndex Int Pos :=
  fun c => (map.posVids_ c).map fun set_ => set_.elements.toFinset

def centerOf (map : Map) (id : Int) : Option Pos :=
  (map.vision_.find id).map fun entry => entry.2.center

/-- Each vision is in the cell of its center. -/
def Centered (map : Map) : Prop :=
  map.vids.Places map.centerOf

section Sets

variable {set_ : IdSet} {id : Int}

theorem toFinset_drop : (set_.drop id).elements.toFinset = set_.elements.toFinset.erase id := by
  ext other
  rw [List.mem_toFinset, KeySorted.mem_elements, KeySorted.mem_drop, Finset.mem_erase,
    List.mem_toFinset, KeySorted.mem_elements, and_comm, id_eq]

theorem toFinset_put : (set_.put id).elements.toFinset = insert id set_.elements.toFinset := by
  ext other
  rw [List.mem_toFinset, KeySorted.mem_elements, KeySorted.mem_put, Finset.mem_insert,
    List.mem_toFinset, KeySorted.mem_elements, id_eq, id_eq]
  tauto

end Sets

section Calls

variable {map : Map} {id : Int} {vision : Vision} {c : Pos}

theorem holds_vids : map.vids.Holds c id ↔ ∃ set_, map.posVids_ c = some set_ ∧ id ∈ set_ := by
  cases found : map.posVids_ c <;> simp [CellIndex.Holds, vids, found, KeySorted.mem_elements]

theorem centerOf_eq_some :
    map.centerOf id = some c ↔ ∃ vision, (id, vision) ∈ map.vision_ ∧ vision.center = c := by
  simp only [centerOf, Option.map_eq_some_iff, KeySorted.find_eq_some, Prod.exists]
  constructor
  · rintro ⟨_, vision, ⟨member, rfl⟩, here⟩
    exact ⟨vision, member, here⟩
  · rintro ⟨vision, member, here⟩
    exact ⟨id, vision, ⟨member, rfl⟩, here⟩

theorem Centered.centersExact (centered : map.Centered) : map.CentersExact := by
  refine ⟨fun c id => ?_, fun c set_ stored empty => ?_⟩
  · rw [← holds_vids, centered.holds, centerOf_eq_some]
  · apply centered.notEmpty c
    simp [vids, stored, empty]

theorem delVision_of_find {entry : Int × Vision} (found : map.vision_.find id = some entry) :
    (map.delVision id).vids = map.vids.eraseAt entry.2.center id ∧
      (map.delVision id).vision_ = map.vision_.drop id := by
  simp only [delVision, found, and_true]
  funext c
  cases stored : map.posVids_ entry.2.center with
  | none => simp [vids, CellIndex.eraseAt, stored]
  | some set_ =>
      have isEmpty : (set_.drop id).elements.isEmpty ↔ set_.elements.toFinset.erase id = ∅ := by
        rw [← toFinset_drop, List.toFinset_eq_empty_iff, List.isEmpty_iff]
      by_cases here : c = entry.2.center
      · subst here
        simp only [vids, CellIndex.eraseAt, stored, isEmpty, Option.map_some, Function.update_self]
        split
        · simp
        · simp [toFinset_drop]
      · simp only [vids, CellIndex.eraseAt, stored, Option.map_some, Function.update_of_ne here]
        split <;> simp [Function.update_of_ne here]

theorem centerOf_delVision (map : Map) (id : Int) :
    (map.delVision id).centerOf = Function.update map.centerOf id none := by
  have gone : ∀ vision, (id, vision) ∉ (map.delVision id).vision_ := by
    intro vision member
    cases found : map.vision_.find id with
    | none =>
        simp only [delVision, found] at member
        exact KeySorted.find_eq_none.mp found (id, vision) member rfl
    | some entry =>
        rw [(delVision_of_find found).2, KeySorted.mem_drop] at member
        exact member.2 rfl
  have others : ∀ other, other ≠ id → ∀ vision,
      (other, vision) ∈ (map.delVision id).vision_ ↔ (other, vision) ∈ map.vision_ := by
    intro other differs vision
    cases found : map.vision_.find id with
    | none => simp only [delVision, found]
    | some entry =>
        rw [(delVision_of_find found).2, KeySorted.mem_drop]
        exact and_iff_left differs
  funext other
  by_cases same : other = id
  · subst same
    rw [Function.update_self, Option.eq_none_iff_forall_ne_some]
    intro c here
    obtain ⟨vision, member, -⟩ := centerOf_eq_some.mp here
    exact gone vision member
  · rw [Function.update_of_ne same]
    refine Option.ext fun c => ?_
    rw [centerOf_eq_some, centerOf_eq_some]
    exact exists_congr fun vision => and_congr_left fun _ => others other same vision

theorem Centered.delVision (centered : map.Centered) (id : Int) :
    (map.delVision id).Centered := by
  rw [Centered, centerOf_delVision]
  cases found : map.vision_.find id with
  | none =>
      have absent : map.centerOf id = none := by rw [centerOf, found]; rfl
      rw [← absent, Function.update_eq_self]
      simp only [Map.delVision, found]
      exact centered
  | some entry =>
      rw [(delVision_of_find found).1]
      refine centered.eraseAt ?_
      rw [centerOf, found]
      rfl

/-- Store a vision and put its id into the cell of its center. -/
def settle (map : Map) (id : Int) (vision : Vision) : Map :=
  let set_ := (map.posVids_ vision.center).getD (KeySorted.empty _)
  { map with
    vision_ := map.vision_.put (id, vision)
    posVids_ := Function.update map.posVids_ vision.center (some (set_.put id)) }

/-- A vision that is not on the map yet gets its place. -/
theorem Centered.settle (centered : map.Centered) (absent : map.centerOf id = none) :
    (map.settle id vision).Centered := by
  have placed := CellIndex.Places.insertAt centered vision.center absent
  have sameIndex : (map.settle id vision).vids = map.vids.insertAt vision.center id := by
    funext c
    by_cases here : c = vision.center
    · subst here
      cases stored : map.posVids_ vision.center with
      | none => simp [Map.settle, vids, CellIndex.insertAt, stored, toFinset_put, KeySorted.empty]
      | some set_ => simp [Map.settle, vids, CellIndex.insertAt, stored, toFinset_put]
    · simp [Map.settle, vids, CellIndex.insertAt, Function.update_of_ne here]
  have sameCenters : (map.settle id vision).centerOf =
      Function.update map.centerOf id (some vision.center) := by
    funext other
    refine Option.ext fun c => ?_
    rw [centerOf_eq_some]
    simp only [Map.settle, KeySorted.mem_put, Prod.mk.injEq]
    by_cases same : other = id
    · subst same
      simp [Function.update_self]
    · simp [same, centerOf_eq_some]
  rw [Centered, sameIndex, sameCenters]
  exact placed

/-- The record that `set_vision` stores. -/
def setting (map : Map) (vision : Vision) : Vision :=
  match map.vision_.find vision.id_ with
  | none => vision
  | some (_, old) => { vision with march_ := old.march_ }

theorem setVision_eq (map : Map) (vision : Vision) :
    map.setVision vision =
      (map.delVision vision.id_).settle vision.id_ (map.setting vision) := by
  simp only [setVision, setting, settle]
  cases found : map.vision_.find vision.id_ with
  | none => simp only [Map.delVision, found]
  | some entry => simp only

theorem Centered.setVision (centered : map.Centered) (vision : Vision) :
    (map.setVision vision).Centered := by
  rw [setVision_eq]
  refine (centered.delVision vision.id_).settle ?_
  rw [centerOf_delVision, Function.update_self]

theorem Centered.visionDiff (centered : map.Centered) (vid : Int) :
    (map.visionDiff vid).1.Centered := by
  unfold Map.visionDiff
  cases found : map.vision_.find vid with
  | none => exact centered
  | some entry =>
      -- The new record differs from the old one in its list alone.
      obtain ⟨member, rfl⟩ := KeySorted.find_eq_some.mp found
      have same : centerOf
          { map with
            vision_ := map.vision_.put (entry.1,
              { entry.2 with march_ := (map.visionMarch entry.1).insertionSort (· ≤ ·) }) } =
          map.centerOf := by
        funext other
        refine Option.ext fun c => ?_
        rw [centerOf_eq_some, centerOf_eq_some]
        simp only [KeySorted.mem_put, Prod.mk.injEq]
        constructor
        · rintro ⟨vision, ⟨rfl, rfl⟩ | ⟨kept, -⟩, here⟩
          · exact ⟨entry.2, member, here⟩
          · exact ⟨vision, kept, here⟩
        · rintro ⟨vision, kept, here⟩
          by_cases isSame : other = entry.1
          · subst isSame
            have isOld := KeySorted.eq_of_key_eq kept member rfl
            refine ⟨_, Or.inl ⟨rfl, rfl⟩, ?_⟩
            rw [← here, ← congrArg Prod.snd isOld]
            rfl
          · exact ⟨vision, Or.inr ⟨kept, isSame⟩, here⟩
      change CellIndex.Places map.vids _
      rw [same]
      exact centered

end Calls

section Runs

variable {map : Map}

theorem Centered.runVisions (centered : map.Centered) (calls : List VisionCall) :
    (map.runVisions calls).Centered := by
  induction calls generalizing map with
  | nil => exact centered
  | cons call calls ih =>
      refine ih ?_
      cases call with
      | setVision vision => exact centered.setVision vision
      | delVision id => exact centered.delVision id
      | visionDiff vid => exact centered.visionDiff vid

/-- The index of the centers is exact after every run, and setting a vision again changes
its corners but not its list. -/
theorem centers_of_run (len wid : Int) (calls : List VisionCall) :
    let map := (create len wid).runVisions calls
    map.CentersExact ∧ ∀ vision old, (vision.id_, old) ∈ map.vision_ →
      (vision.id_, { vision with march_ := old.march_ }) ∈ (map.setVision vision).vision_ := by
  intro map
  have start : (create len wid).Centered := CellIndex.places_empty
  refine ⟨(start.runVisions calls).centersExact, fun vision old member => ?_⟩
  have found := KeySorted.find_eq_some.mpr ⟨member, rfl⟩
  have isSetting : map.setting vision = { vision with march_ := old.march_ } := by
    simp only [setting, found]
  rw [setVision_eq, isSetting]
  exact KeySorted.mem_put.mpr (Or.inl rfl)

/-- A vision of one march is set again. -/
theorem centers_of_run_again :
    let map := (create 9 9).runVisions [.setVision ⟨1, ⟨0, 0⟩, ⟨2, 2⟩, [4]⟩]
    map.CentersExact ∧
      (1, ⟨1, ⟨3, 3⟩, ⟨5, 5⟩, [4]⟩) ∈ (map.setVision ⟨1, ⟨3, 3⟩, ⟨5, 5⟩, []⟩).vision_ := by
  intro map
  obtain ⟨exact_, keeps⟩ := centers_of_run 9 9 [.setVision ⟨1, ⟨0, 0⟩, ⟨2, 2⟩, [4]⟩]
  have member : ((1 : Int), (⟨1, ⟨0, 0⟩, ⟨2, 2⟩, [4]⟩ : Vision)) ∈ map.vision_ :=
    List.mem_singleton_self _
  exact ⟨exact_, keeps ⟨1, ⟨3, 3⟩, ⟨5, 5⟩, []⟩ ⟨1, ⟨0, 0⟩, ⟨2, 2⟩, [4]⟩ member⟩

end Runs

end Map

end Slg

end LuaServer
