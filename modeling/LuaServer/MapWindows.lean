import LuaServer.MapInstances

/-!
# What a move on the map shows and hides

The window of a cell reaches ten cells to every side.  `get_aoi` visits the occupied
cells of a window, but its 16-bit sums wrap around at the end of their range, and one of
the eight comparisons of `diff_aoi` takes its coordinate from the wrong cell.
-/

namespace LuaServer

namespace SkillMap

open GridCell MachineIntegers SkillWorld

/-- Coordinates that an `int16_t` holds. -/
def Represented (cell : Pos) : Prop :=
  (-32768 ≤ cell.x ∧ cell.x < 32768) ∧ -32768 ≤ cell.y ∧ cell.y < 32768

/-- The cells at most `search_max_` away in both directions. -/
def InWindow (center cell : Pos) : Prop :=
  |cell.x - center.x| ≤ searchMax_ ∧ |cell.y - center.y| ≤ searchMax_

/-- The cells that the 16-bit sums of `get_aoi` lead to. -/
def Reaches (center cell : Pos) : Prop :=
  |toInt16 (cell.x - center.x)| ≤ searchMax_ ∧ |toInt16 (cell.y - center.y)| ≤ searchMax_

instance (center cell : Pos) : Decidable (InWindow center cell) :=
  inferInstanceAs (Decidable (_ ∧ _))

namespace Core

/-- `Map::diff_aoi`, with `add` first and `del` second. -/
def diffAoi (core : Core) (listed : Pos → List Int) (ocell ncell : Pos) :
    List Int × List Int :=
  if ocell = ncell then ([], [])
  else
    -- `oy` of the source is not used.
    let ox := ocell.x
    let nx := ncell.x
    let ny := ncell.y
    let max : Int := searchMax_
    let del := (core.getAoi ocell).foldl (fun del cell =>
      if cell.x ≥ nx - max ∧ cell.x ≤ nx + max ∧ cell.y ≥ ny - max ∧ cell.y ≤ ny + max then del
      else del ++ listed cell) []
    let add := (core.getAoi ncell).foldl (fun add cell =>
      if cell.x ≥ ox - max ∧ cell.x ≤ ox + max ∧ cell.y ≥ ny - max ∧ cell.y ≤ ny + max then add
      else add ++ listed cell) []
    (add, del)

end Core

section Windows

variable {center cell : Pos}

theorem offsets_eq : offsets = (List.range 21).flatMap fun x : Nat =>
    (List.range 21).map fun y : Nat => ⟨(x : Int) - searchMax_, (y : Int) - searchMax_⟩ := by
  have casts : (List.range 21).flatMap (fun a : Nat => [(a : Int)]) =
      (List.range 21).map fun a : Nat => (a : Int) := List.flatMap_pure_eq_map ..
  change ((List.range 21).flatMap fun a : Nat => [(a : Int)]).flatMap (fun x : Int =>
    ((List.range 21).flatMap fun a : Nat => [(a : Int)]).map fun y : Int =>
      (⟨x - searchMax_, y - searchMax_⟩ : Pos)) = _
  rw [casts, List.flatMap_map]
  simp only [List.map_map, Function.comp_def]

theorem mem_offsets (d : Pos) : d ∈ offsets ↔ |d.x| ≤ searchMax_ ∧ |d.y| ≤ searchMax_ := by
  rw [offsets_eq]
  simp only [List.mem_flatMap, List.mem_map, List.mem_range, searchMax_, abs_le]
  constructor
  · rintro ⟨x, xRange, y, yRange, rfl⟩
    simp only
    omega
  · rintro ⟨⟨left, right⟩, bottom, top⟩
    refine ⟨(d.x + 10).toNat, by omega, (d.y + 10).toNat, by omega, ?_⟩
    ext
    · simp only
      omega
    · simp only
      omega

theorem nodup_offsets : offsets.Nodup := by
  rw [offsets_eq, List.nodup_flatMap]
  constructor
  · intro x _
    refine List.nodup_range.map fun y other same => ?_
    have sameY := congrArg GridCell.y same
    simp only at sameY
    omega
  · refine List.nodup_range.pairwise_of_forall_ne fun x _ other _ apart => ?_
    apply List.disjoint_left.mpr
    intro d here there
    obtain ⟨y, -, rfl⟩ := List.mem_map.mp here
    obtain ⟨y', -, same⟩ := List.mem_map.mp there
    have sameX := congrArg GridCell.x same
    simp only at sameX
    omega

theorem toInt16_congr {value other : Int} (same : value % 65536 = other % 65536) :
    toInt16 value = toInt16 other := by
  simp only [toInt16, toSigned, Int.bmod]
  norm_num
  rw [same]

theorem toInt16_emod (value : Int) : toInt16 value % 65536 = value % 65536 := by
  simp only [toInt16, toSigned]
  exact Int.bmod_emod

/-- Within 16 bits a sum leads to a cell exactly when the wrapped difference does. -/
theorem toInt16_add_eq_iff {base step target : Int} (small : |step| ≤ 32767)
    (range : -32768 ≤ target ∧ target < 32768) :
    toInt16 (base + step) = target ↔ step = toInt16 (target - base) := by
  rw [abs_le] at small
  constructor
  · intro reached
    have mod := toInt16_emod (base + step)
    rw [← toInt16_of_range (show -32768 ≤ step by omega) (by omega)]
    apply toInt16_congr
    omega
  · intro isStep
    have mod := toInt16_emod (target - base)
    rw [← toInt16_of_range range.1 range.2]
    apply toInt16_congr
    omega

theorem InWindow.reaches (inWindow : InWindow center cell) : Reaches center cell := by
  obtain ⟨nearX, nearY⟩ := inWindow
  have xRange := abs_le.mp nearX
  have yRange := abs_le.mp nearY
  simp only [searchMax_] at xRange yRange
  rw [Reaches, toInt16_of_range (by omega) (by omega), toInt16_of_range (by omega) (by omega)]
  exact ⟨nearX, nearY⟩

end Windows

namespace Core

variable {core : Core} {place : Int → Option Pos} {listed : Pos → List Int}

/-- The cells that `get_aoi` calls back with: the occupied ones that its sums lead to,
once each. -/
theorem getAoi_spec (core : Core) (center : Pos) :
    (core.getAoi center).Nodup ∧ ∀ cell, cell ∈ core.getAoi center ↔
      (core.cellEntities_ cell).isSome ∧ Represented cell ∧ Reaches center cell := by
  have elements : ∀ d, d ∈ core.searchOrder_.elements ↔ |d.x| ≤ searchMax_ ∧
      |d.y| ≤ searchMax_ := fun d => core.searchOrder_.perm.mem_iff.trans (mem_offsets d)
  have small : ∀ {step : Int}, |step| ≤ searchMax_ → |step| ≤ 32767 :=
    fun near => near.trans (by decide)
  have distinct := core.searchOrder_.perm.nodup_iff.mpr nodup_offsets
  constructor
  · refine (List.Nodup.map_on ?_ distinct).filter _
    intro d isIn other otherIn same
    obtain ⟨nearX, nearY⟩ := (elements d).mp isIn
    obtain ⟨otherX, otherY⟩ := (elements other).mp otherIn
    have sameX := congrArg GridCell.x same
    have sameY := congrArg GridCell.y same
    ext
    · exact ((toInt16_add_eq_iff (small nearX) (toInt16_range _)).mp sameX).trans
        ((toInt16_add_eq_iff (small otherX) (toInt16_range _)).mp rfl).symm
    · exact ((toInt16_add_eq_iff (small nearY) (toInt16_range _)).mp sameY).trans
        ((toInt16_add_eq_iff (small otherY) (toInt16_range _)).mp rfl).symm
  · intro cell
    simp only [getAoi, List.mem_filter, List.mem_map]
    rw [and_comm]
    apply and_congr_right
    intro _
    constructor
    · rintro ⟨d, isIn, rfl⟩
      obtain ⟨nearX, nearY⟩ := (elements d).mp isIn
      refine ⟨⟨toInt16_range _, toInt16_range _⟩, ?_, ?_⟩
      · rw [← (toInt16_add_eq_iff (small nearX) (toInt16_range _)).mp rfl]
        exact nearX
      · rw [← (toInt16_add_eq_iff (small nearY) (toInt16_range _)).mp rfl]
        exact nearY
    · rintro ⟨⟨xRange, yRange⟩, nearX, nearY⟩
      refine ⟨⟨toInt16 (cell.x - center.x), toInt16 (cell.y - center.y)⟩,
        (elements _).mpr ⟨nearX, nearY⟩, ?_⟩
      ext
      · exact (toInt16_add_eq_iff (small nearX) xRange).mpr rfl
      · exact (toInt16_add_eq_iff (small nearY) yRange).mpr rfl

end Core

/-- The callbacks append what the cells they do not skip list. -/
theorem foldl_unless (skip : Pos → Prop) [DecidablePred skip] (listed : Pos → List Int)
    (cells : List Pos) (taken : List Int) :
    cells.foldl (fun taken cell => if skip cell then taken else taken ++ listed cell) taken =
      taken ++ (cells.filter fun cell => ¬ skip cell).flatMap listed := by
  induction cells generalizing taken with
  | nil => simp
  | cons cell cells ih =>
      rw [List.foldl_cons, ih]
      by_cases skipped : skip cell
      · rw [if_pos skipped, List.filter_cons_of_neg (by simpa using skipped)]
      · rw [if_neg skipped, List.filter_cons_of_pos (by simpa using skipped), List.flatMap_cons,
          List.append_assoc]

section Diff

variable {core : Core} {place : Int → Option Pos} {listed : Pos → List Int}
  {ocell ncell : Pos}

/-- What a walk over a window collects when it skips some cells. -/
theorem collected_spec (places : core.cellEntities_.Places place)
    (lists : Lists core.cellEntities_ listed)
    (represented : ∀ id cell, place id = some cell → Represented cell)
    (skip : Pos → Prop) [DecidablePred skip] (center : Pos) :
    ((core.getAoi center).foldl (fun taken cell =>
        if skip cell then taken else taken ++ listed cell) []).Nodup ∧
      ∀ id, id ∈ (core.getAoi center).foldl (fun taken cell =>
          if skip cell then taken else taken ++ listed cell) [] ↔
        ∃ cell, place id = some cell ∧ Reaches center cell ∧ ¬ skip cell := by
  obtain ⟨distinct, visited⟩ := core.getAoi_spec center
  have kept : ∀ cell, cell ∈ (core.getAoi center).filter (fun cell => ¬ skip cell) ↔
      ((core.cellEntities_ cell).isSome ∧ Represented cell ∧ Reaches center cell) ∧
        ¬ skip cell := by
    intro cell
    rw [List.mem_filter, visited, decide_eq_true_iff]
  obtain ⟨nodup, members⟩ := flatMap_listed places lists (distinct.filter fun cell => ¬ skip cell)
    fun cell member => ((kept cell).mp member).1.1
  rw [foldl_unless, List.nil_append]
  refine ⟨nodup, fun id => (members id).trans ⟨?_, ?_⟩⟩
  · rintro ⟨cell, member, here⟩
    obtain ⟨⟨-, -, reached⟩, unskipped⟩ := (kept cell).mp member
    exact ⟨cell, here, reached, unskipped⟩
  · rintro ⟨cell, here, reached, unskipped⟩
    exact ⟨cell, (kept cell).mpr ⟨⟨places.isSome here, represented id cell here, reached⟩,
      unskipped⟩, here⟩

/-- An entity in the window of `here` that is not in the window of `away`. -/
def Appears (place : Int → Option Pos) (here away : Pos) (id : Int) : Prop :=
  ∃ cell, place id = some cell ∧ InWindow here cell ∧ ¬ InWindow away cell

/-- What the two lists of a move hold. -/
structure DiffExact (place : Int → Option Pos) (ocell ncell : Pos) (diff : List Int × List Int) :
    Prop where
  add : diff.1.Nodup ∧ ∀ id, id ∈ diff.1 ↔ Appears place ncell ocell id
  del : diff.2.Nodup ∧ ∀ id, id ∈ diff.2 ↔ Appears place ocell ncell id

/-- No entity lies where a comparison or a sum goes wrong. -/
structure DiffFits (place : Int → Option Pos) (ocell ncell : Pos) : Prop where
  /-- The new window has nothing in the columns of the old one above or below it. -/
  column : ∀ id cell, place id = some cell → InWindow ncell cell →
    |cell.x - ocell.x| ≤ searchMax_ → |cell.y - ocell.y| ≤ searchMax_
  /-- The sums around the old cell lead into one of the windows. -/
  before : ∀ id cell, place id = some cell → Reaches ocell cell →
    InWindow ocell cell ∨ InWindow ncell cell
  /-- The sums around the new cell lead into its window, or to what is skipped. -/
  behind : ∀ id cell, place id = some cell → Reaches ncell cell → InWindow ncell cell ∨
    |cell.x - ocell.x| ≤ searchMax_ ∧ |cell.y - ncell.y| ≤ searchMax_

theorem diffAoi_spec (places : core.cellEntities_.Places place)
    (lists : Lists core.cellEntities_ listed)
    (represented : ∀ id cell, place id = some cell → Represented cell) (differ : ocell ≠ ncell) :
    ((core.diffAoi listed ocell ncell).1.Nodup ∧
      ∀ id, id ∈ (core.diffAoi listed ocell ncell).1 ↔ ∃ cell, place id = some cell ∧
        Reaches ncell cell ∧
          ¬ (|cell.x - ocell.x| ≤ searchMax_ ∧ |cell.y - ncell.y| ≤ searchMax_)) ∧
    ((core.diffAoi listed ocell ncell).2.Nodup ∧
      ∀ id, id ∈ (core.diffAoi listed ocell ncell).2 ↔ ∃ cell, place id = some cell ∧
        Reaches ocell cell ∧ ¬ InWindow ncell cell) := by
  have between : ∀ value base : Int, value ≥ base - searchMax_ ∧ value ≤ base + searchMax_ ↔
      |value - base| ≤ searchMax_ := by
    intro value base
    rw [abs_le]
    omega
  have add := collected_spec places lists represented (fun cell =>
    cell.x ≥ ocell.x - searchMax_ ∧ cell.x ≤ ocell.x + searchMax_ ∧
      cell.y ≥ ncell.y - searchMax_ ∧ cell.y ≤ ncell.y + searchMax_) ncell
  have del := collected_spec places lists represented (fun cell =>
    cell.x ≥ ncell.x - searchMax_ ∧ cell.x ≤ ncell.x + searchMax_ ∧
      cell.y ≥ ncell.y - searchMax_ ∧ cell.y ≤ ncell.y + searchMax_) ocell
  simp only [Core.diffAoi, if_neg differ]
  refine ⟨⟨add.1, fun id => (add.2 id).trans ?_⟩, del.1, fun id => (del.2 id).trans ?_⟩
  · simp only [← between, and_assoc]
  · simp only [InWindow, ← between, and_assoc]

/-- `diff_aoi` is exact where no entity lies in the columns of the old window that the new
one adds rows to, and no 16-bit sum leads out of its window to one. -/
theorem diffAoi_exact_iff (core : Core) (place : Int → Option Pos) (listed : Pos → List Int)
    (ocell ncell : Pos) (places : core.cellEntities_.Places place)
    (lists : Lists core.cellEntities_ listed)
    (represented : ∀ id cell, place id = some cell → Represented cell) (differ : ocell ≠ ncell) :
    DiffExact place ocell ncell (core.diffAoi listed ocell ncell) ↔
      DiffFits place ocell ncell := by
  obtain ⟨⟨addOnce, add⟩, delOnce, del⟩ := diffAoi_spec places lists represented differ
  constructor
  · rintro ⟨⟨-, addExact⟩, -, delExact⟩
    constructor
    · intro id cell here inNew column
      by_contra outside
      have appears : Appears place ncell ocell id := ⟨cell, here, inNew, fun old => outside old.2⟩
      obtain ⟨found, isFound, -, unskipped⟩ := (add id).mp ((addExact id).mpr appears)
      cases here.symm.trans isFound
      exact unskipped ⟨column, inNew.2⟩
    · intro id cell here reached
      by_contra outside
      rw [not_or] at outside
      have listed := (del id).mpr ⟨cell, here, reached, outside.2⟩
      obtain ⟨found, isFound, inOld, -⟩ := (delExact id).mp listed
      cases here.symm.trans isFound
      exact outside.1 inOld
    · intro id cell here reached
      by_contra outside
      rw [not_or] at outside
      have listed := (add id).mpr ⟨cell, here, reached, outside.2⟩
      obtain ⟨found, isFound, inNew, -⟩ := (addExact id).mp listed
      cases here.symm.trans isFound
      exact outside.1 inNew
  · rintro ⟨column, before, behind⟩
    refine ⟨⟨addOnce, fun id => (add id).trans ?_⟩, delOnce, fun id => (del id).trans ?_⟩
    · refine exists_congr fun cell => and_congr_right fun here => ?_
      constructor
      · rintro ⟨reached, unskipped⟩
        have inNew := (behind id cell here reached).resolve_right unskipped
        exact ⟨inNew, fun inOld => unskipped ⟨inOld.1, inNew.2⟩⟩
      · rintro ⟨inNew, outside⟩
        exact ⟨inNew.reaches, fun skipped =>
          outside ⟨skipped.1, column id cell here inNew skipped.1⟩⟩
    · refine exists_congr fun cell => and_congr_right fun here => ?_
      constructor
      · rintro ⟨reached, outside⟩
        exact ⟨(before id cell here reached).resolve_right outside, outside⟩
      · rintro ⟨inOld, outside⟩
        exact ⟨inOld.reaches, outside⟩

end Diff

section Beside

/-- A map of 100 by 100 with one entity. -/
def oneCore (y : Nat) : Core :=
  (Core.create 100 100 default).addEntity ⟨1, (50 : Nat), y, 0, 0, 0⟩ ⟨0, 0⟩

/-- Where its entity lies. -/
def onePlace (y : Nat) : Int → Option Pos :=
  Function.update (fun _ => none) 1 (some ⟨50, y⟩)

theorem truncate_natCast {y : Nat} (upper : y ≤ 32766) :
    truncate ((y : ℚ) / (cellLen_ : ℚ)) = y := by
  have isOne : (cellLen_ : ℚ) = 1 := rfl
  have bound : (y : ℚ) ≤ 32766 := by exact_mod_cast upper
  rw [isOne, div_one, truncate_of_range (Nat.cast_nonneg y) bound, Int.floor_natCast]

theorem oneCore_places {y : Nat} (upper : y ≤ 32766) :
    (oneCore y).cellEntities_.Places (onePlace y) := by
  have isCell : Entity.cell ⟨1, (50 : Nat), y, 0, 0, 0⟩ = ⟨50, y⟩ := by
    rw [Entity.cell, truncate_natCast (by decide), truncate_natCast upper]
    rfl
  rw [onePlace, ← isCell]
  exact CellIndex.places_empty.insertAt _ rfl

theorem onePlace_represented {y : Nat} (upper : y ≤ 32766) (id : Int) (cell : Pos)
    (here : onePlace y id = some cell) : Represented cell := by
  rw [onePlace, Function.update_apply] at here
  split at here
  next isOne =>
    cases here
    simp only [Represented]
    omega
  next => exact absurd here (Option.some_ne_none cell).symm

/-- A step to the side past an entity. -/
theorem diffAoi_exact_iff_aside : DiffExact (onePlace 55) ⟨50, 50⟩ ⟨51, 50⟩
    ((oneCore 55).diffAoi (fun g => (((oneCore 55).cellEntities_ g).getD ∅).toList)
      ⟨50, 50⟩ ⟨51, 50⟩) := by
  refine (diffAoi_exact_iff _ _ _ _ _ (oneCore_places (by decide)) (lists_toList _)
    (onePlace_represented (by decide)) (by decide)).mpr ?_
  have only : ∀ id cell, onePlace 55 id = some cell → cell = ⟨50, 55⟩ := by
    intro id cell here
    rw [onePlace, Function.update_apply] at here
    split at here
    next => exact (Option.some.inj here).symm
    next => cases here
  refine ⟨fun id cell here _ _ => ?_, fun id cell here _ => Or.inl ?_, fun id cell here _ =>
    Or.inl ?_⟩ <;> rw [only id cell here]
  · decide
  · decide
  · decide

/-- A step along `y` does not show the entity that it comes near. -/
theorem not_diffAoi_exact : ¬ DiffExact (onePlace 65) ⟨50, 50⟩ ⟨50, 60⟩
    ((oneCore 65).diffAoi (fun g => (((oneCore 65).cellEntities_ g).getD ∅).toList)
      ⟨50, 50⟩ ⟨50, 60⟩) := by
  rintro ⟨⟨-, add⟩, -⟩
  have isCell : onePlace 65 1 = some ⟨50, 65⟩ := Function.update_self ..
  have appears : Appears (onePlace 65) ⟨50, 60⟩ ⟨50, 50⟩ 1 :=
    ⟨⟨50, 65⟩, isCell, by decide, by decide⟩
  obtain ⟨cell, here, -, unskipped⟩ := ((diffAoi_spec (oneCore_places (by decide)) (lists_toList _)
    (onePlace_represented (by decide)) (by decide)).1.2 1).mp ((add 1).mpr appears)
  cases isCell.symm.trans here
  exact unskipped (by decide)

end Beside

end SkillMap

end LuaServer
