import LuaServer.SegmentGeometry
import LuaServer.SlgGeometry
import Mathlib.Data.Real.Basic

/-!
# Troops seen on their way

`World::inview` compares bounding boxes and signs of cross products.  Over the
coordinates of a map these are exact, so a troop is seen exactly when its segment has a
point in the rectangle of the view.
-/

namespace LuaServer

namespace Slg

open MachineIntegers SegmentGeometry

/-- A position whose coordinates are not negative 16-bit numbers. -/
structure OnMap (p : Pos) : Prop where
  left : 0 ≤ p.x
  right : p.x ≤ 32767
  bottom : 0 ≤ p.y
  top : p.y ≤ 32767

/-- A number that fits into 16 bits. -/
def FitsInt16 (value : Int) : Prop :=
  -32768 ≤ value ∧ value < 32768

/-- A number that fits into 32 bits. -/
def FitsInt32 (value : Int) : Prop :=
  -2147483648 ≤ value ∧ value < 2147483648

/-- No difference, product or sum that `cross` computes leaves its type. -/
structure CrossFits (a b c : Pos) : Prop where
  vabX : FitsInt16 (b.x - a.x)
  vabY : FitsInt16 (b.y - a.y)
  vacX : FitsInt16 (c.x - a.x)
  vacY : FitsInt16 (c.y - a.y)
  first : FitsInt32 (toInt16 (b.x - a.x) * toInt16 (c.y - a.y))
  second : FitsInt32 (toInt16 (c.x - a.x) * toInt16 (b.y - a.y))
  difference : FitsInt32 (cross a b c)

theorem difference_fits {u v : Int} (lower : 0 ≤ u ∧ 0 ≤ v) (upper : u ≤ 32767 ∧ v ≤ 32767) :
    -32767 ≤ v - u ∧ v - u ≤ 32767 ∧ toInt16 (v - u) = v - u := by
  exact ⟨by omega, by omega, toInt16_of_range (by omega) (by omega)⟩

theorem abs_product_le {u v : Int} (first : -32767 ≤ u ∧ u ≤ 32767)
    (second : -32767 ≤ v ∧ v ≤ 32767) : |u * v| ≤ 1073676289 := by
  have bounded := mul_le_mul (abs_le.mpr first) (abs_le.mpr second) (abs_nonneg v) (by norm_num)
  rw [abs_mul]
  exact bounded

section Exactness

variable {a b c d n e bl tr : Pos}

theorem cross_eq (aOn : OnMap a) (bOn : OnMap b) (cOn : OnMap c) :
    cross a b c = (b.x - a.x) * (c.y - a.y) - (c.x - a.x) * (b.y - a.y) := by
  simp only [cross]
  rw [(difference_fits ⟨aOn.left, bOn.left⟩ ⟨aOn.right, bOn.right⟩).2.2,
    (difference_fits ⟨aOn.bottom, bOn.bottom⟩ ⟨aOn.top, bOn.top⟩).2.2,
    (difference_fits ⟨aOn.left, cOn.left⟩ ⟨aOn.right, cOn.right⟩).2.2,
    (difference_fits ⟨aOn.bottom, cOn.bottom⟩ ⟨aOn.top, cOn.top⟩).2.2]

theorem crossFits (aOn : OnMap a) (bOn : OnMap b) (cOn : OnMap c) : CrossFits a b c := by
  obtain ⟨lowBX, highBX, sameBX⟩ :=
    difference_fits ⟨aOn.left, bOn.left⟩ ⟨aOn.right, bOn.right⟩
  obtain ⟨lowBY, highBY, sameBY⟩ :=
    difference_fits ⟨aOn.bottom, bOn.bottom⟩ ⟨aOn.top, bOn.top⟩
  obtain ⟨lowCX, highCX, sameCX⟩ :=
    difference_fits ⟨aOn.left, cOn.left⟩ ⟨aOn.right, cOn.right⟩
  obtain ⟨lowCY, highCY, sameCY⟩ :=
    difference_fits ⟨aOn.bottom, cOn.bottom⟩ ⟨aOn.top, cOn.top⟩
  obtain ⟨firstLow, firstHigh⟩ := abs_le.mp (abs_product_le ⟨lowBX, highBX⟩ ⟨lowCY, highCY⟩)
  obtain ⟨secondLow, secondHigh⟩ := abs_le.mp (abs_product_le ⟨lowCX, highCX⟩ ⟨lowBY, highBY⟩)
  refine ⟨⟨by omega, by omega⟩, ⟨by omega, by omega⟩, ⟨by omega, by omega⟩,
    ⟨by omega, by omega⟩, ?_, ?_, ?_⟩
  · rw [sameBX, sameCY]
    exact ⟨by omega, by omega⟩
  · rw [sameCX, sameBY]
    exact ⟨by omega, by omega⟩
  · rw [cross_eq aOn bOn cOn]
    exact ⟨by omega, by omega⟩

/-- A position as a point of the plane. -/
noncomputable def toPlane (p : Pos) : ℝ × ℝ :=
  (p.x, p.y)

theorem cast_cross (aOn : OnMap a) (bOn : OnMap b) (cOn : OnMap c) :
    ((cross a b c : Int) : ℝ) = SegmentGeometry.cross (toPlane a) (toPlane b) (toPlane c) := by
  rw [cross_eq aOn bOn cOn]
  simp only [SegmentGeometry.cross, toPlane]
  push_cast
  ring

theorem boxesMeet_iff :
    BoxesMeet (toPlane a) (toPlane b) (toPlane c) (toPlane d) ↔
      ¬ (max a.x b.x < min c.x d.x ∨ max c.x d.x < min a.x b.x ∨
        max a.y b.y < min c.y d.y ∨ max c.y d.y < min a.y b.y) := by
  simp only [not_or, not_lt]
  constructor
  · rintro ⟨left, right, below, above⟩
    simp only [toPlane] at left right below above
    exact ⟨by exact_mod_cast left, by exact_mod_cast right, by exact_mod_cast below,
      by exact_mod_cast above⟩
  · rintro ⟨left, right, below, above⟩
    constructor
    all_goals
      simp only [toPlane]
      assumption_mod_cast

theorem intersect_iff (aOn : OnMap a) (bOn : OnMap b) (cOn : OnMap c) (dOn : OnMap d) :
    intersect a b c d = true ↔
      (segment ℝ (toPlane a) (toPlane b) ∩ segment ℝ (toPlane c) (toPlane d)).Nonempty := by
  have straddle : Straddle (toPlane a) (toPlane b) (toPlane c) (toPlane d) ↔
      cross a b c * cross a b d ≤ 0 ∧ cross c d a * cross c d b ≤ 0 := by
    constructor
    · rintro ⟨first, second⟩
      rw [← cast_cross aOn bOn cOn, ← cast_cross aOn bOn dOn] at first
      rw [← cast_cross cOn dOn aOn, ← cast_cross cOn dOn bOn] at second
      exact ⟨by exact_mod_cast first, by exact_mod_cast second⟩
    · rintro ⟨first, second⟩
      constructor
      · rw [← cast_cross aOn bOn cOn, ← cast_cross aOn bOn dOn]
        exact_mod_cast first
      · rw [← cast_cross cOn dOn aOn, ← cast_cross cOn dOn bOn]
        exact_mod_cast second
  rw [segments_meet_iff, boxesMeet_iff, straddle]
  simp only [intersect]
  split
  next apart => exact iff_of_false Bool.false_ne_true fun meets => meets.1 apart
  next near =>
    rw [Bool.and_eq_true, decide_eq_true_iff, decide_eq_true_iff]
    exact (and_iff_right near).symm

theorem inarea_iff_mem_rectangle :
    inarea n bl tr = true ↔ toPlane n ∈ Set.Icc (toPlane bl) (toPlane tr) := by
  rw [inarea_iff]
  simp only [Set.mem_Icc, Prod.le_def, toPlane, Int.cast_le]
  tauto

/-- A troop is seen exactly when it begins, ends or crosses an edge in the rectangle. -/
theorem inview_iff (nOn : OnMap n) (eOn : OnMap e) (blOn : OnMap bl) (trOn : OnMap tr) :
    inview n e bl tr = true ↔
      (toPlane n ∈ Set.Icc (toPlane bl) (toPlane tr) ∨
        toPlane e ∈ Set.Icc (toPlane bl) (toPlane tr)) ∨
      MeetsEdge (toPlane n) (toPlane e) (toPlane bl) (toPlane tr) := by
  have p1 : OnMap ⟨bl.x, bl.y⟩ := blOn
  have p2 : OnMap ⟨bl.x, tr.y⟩ := ⟨blOn.left, blOn.right, trOn.bottom, trOn.top⟩
  have p3 : OnMap ⟨tr.x, tr.y⟩ := trOn
  have p4 : OnMap ⟨tr.x, bl.y⟩ := ⟨trOn.left, trOn.right, blOn.bottom, blOn.top⟩
  rw [← inarea_iff_mem_rectangle, ← inarea_iff_mem_rectangle]
  simp only [inview]
  split
  next inside => exact iff_of_true rfl (Or.inl (Bool.or_eq_true_iff.mp inside))
  next outside =>
    rw [Bool.or_eq_true, not_or] at outside
    simp only [outside.1, outside.2, false_or, Bool.or_eq_true, or_assoc, Bool.false_eq_true]
    rw [intersect_iff nOn eOn p1 p2, intersect_iff nOn eOn p2 p3, intersect_iff nOn eOn p3 p4,
      intersect_iff nOn eOn p4 p1]
    rfl

end Exactness

/-- What a view test promises: it finds exactly the segments with a point in the rectangle,
and nothing that it multiplies overflows. -/
structure SightExact (n e bl tr : Pos) : Prop where
  seen : inview n e bl tr = true ↔
    (segment ℝ (toPlane n) (toPlane e) ∩ Set.Icc (toPlane bl) (toPlane tr)).Nonempty
  fits : ∀ a ∈ [n, e, ⟨bl.x, bl.y⟩, ⟨bl.x, tr.y⟩, ⟨tr.x, tr.y⟩, ⟨tr.x, bl.y⟩],
    ∀ b ∈ [n, e, ⟨bl.x, bl.y⟩, ⟨bl.x, tr.y⟩, ⟨tr.x, tr.y⟩, ⟨tr.x, bl.y⟩],
    ∀ c ∈ [n, e, ⟨bl.x, bl.y⟩, ⟨bl.x, tr.y⟩, ⟨tr.x, tr.y⟩, ⟨tr.x, bl.y⟩], CrossFits a b c

theorem inview_exact (n e bl tr : Pos) (nOn : OnMap n) (eOn : OnMap e) (blOn : OnMap bl)
    (trOn : OnMap tr) (wide : bl.x ≤ tr.x) (high : bl.y ≤ tr.y) : SightExact n e bl tr := by
  have ordered : toPlane bl ≤ toPlane tr := by
    simpa [toPlane, Prod.le_def] using And.intro wide high
  constructor
  · rw [inview_iff nOn eOn blOn trOn, segment_meets_rectangle_iff ordered]
    constructor
    · rintro ((start | finish) | edge)
      · exact Or.inl start
      · exact (segment_meets_rectangle_iff ordered).mp
          ⟨_, right_mem_segment ℝ (toPlane n) (toPlane e), finish⟩
      · exact Or.inr edge
    · rintro (start | edge)
      · exact Or.inl (Or.inl start)
      · exact Or.inr edge
  · have onMap : ∀ p ∈ [n, e, ⟨bl.x, bl.y⟩, ⟨bl.x, tr.y⟩, ⟨tr.x, tr.y⟩, ⟨tr.x, bl.y⟩], OnMap p := by
      simp only [List.forall_mem_cons, List.not_mem_nil, false_imp_iff, implies_true, and_true]
      exact ⟨nOn, eOn, blOn, ⟨blOn.left, blOn.right, trOn.bottom, trOn.top⟩, trOn,
        ⟨trOn.left, trOn.right, blOn.bottom, blOn.top⟩⟩
    intro a aIn b bIn c cIn
    exact crossFits (onMap a aIn) (onMap b bIn) (onMap c cIn)

/-- The longest segment of a map grazes the corner of a rectangle. -/
theorem inview_exact_corner : SightExact ⟨0, 32767⟩ ⟨32767, 0⟩ ⟨16384, 16383⟩ ⟨20000, 20000⟩ :=
  inview_exact _ _ _ _ ⟨by decide, by decide, by decide, by decide⟩
    ⟨by decide, by decide, by decide, by decide⟩ ⟨by decide, by decide, by decide, by decide⟩
    ⟨by decide, by decide, by decide, by decide⟩ (by decide) (by decide)

example : inview ⟨0, 32767⟩ ⟨32767, 0⟩ ⟨16384, 16383⟩ ⟨20000, 20000⟩ = true := by decide

end Slg

end LuaServer
