import Mathlib.Analysis.Convex.Basic
import Mathlib.Tactic.LinearCombination
import Mathlib.Tactic.Linarith
import Mathlib.Tactic.FieldSimp

/-!
# Segments and rectangles in the plane

Two closed segments have a common point exactly when their bounding boxes meet and each
of them straddles the line of the other.  A segment has a point in a rectangle exactly
when it begins there or meets one of the four edges: on its way in it crosses the edge
that it crosses last.
-/

namespace LuaServer

namespace SegmentGeometry

variable {K : Type*} [Field K]

/-- Twice the signed area of a triangle. -/
def cross (a b c : K × K) : K :=
  (b.1 - a.1) * (c.2 - a.2) - (c.1 - a.1) * (b.2 - a.2)

/-- The point of the line through `a` and `b` at the parameter `s`. -/
def along (a b : K × K) (s : K) : K × K :=
  (a.1 + s * (b.1 - a.1), a.2 + s * (b.2 - a.2))

theorem cross_along (a b c d : K × K) (t : K) :
    cross a b (along c d t) = (1 - t) * cross a b c + t * cross a b d := by
  simp only [cross, along]
  ring

theorem cross_along_self (a b : K × K) (s : K) : cross a b (along a b s) = 0 := by
  simp only [cross, along]
  ring

variable [LinearOrder K] [IsStrictOrderedRing K]

theorem mem_segment_iff {a b p : K × K} :
    p ∈ segment K a b ↔ ∃ s, 0 ≤ s ∧ s ≤ 1 ∧ along a b s = p := by
  rw [segment_eq_image', Set.mem_image]
  constructor
  · rintro ⟨s, ⟨lower, upper⟩, rfl⟩
    exact ⟨s, lower, upper, rfl⟩
  · rintro ⟨s, lower, upper, rfl⟩
    exact ⟨s, ⟨lower, upper⟩, rfl⟩

section Intervals

variable {u v x s : K}

theorem exists_between (lower : min u v ≤ x) (upper : x ≤ max u v) :
    ∃ s, 0 ≤ s ∧ s ≤ 1 ∧ u + s * (v - u) = x := by
  have inside : x ∈ segment K u v := by
    rw [segment_eq_Icc']
    exact ⟨lower, upper⟩
  rw [segment_eq_image', Set.mem_image] at inside
  obtain ⟨s, ⟨low, high⟩, isPoint⟩ := inside
  exact ⟨s, low, high, isPoint⟩

theorem between_along (lower : 0 ≤ s) (upper : s ≤ 1) :
    min u v ≤ u + s * (v - u) ∧ u + s * (v - u) ≤ max u v := by
  have inside : u + s * (v - u) ∈ segment K u v := by
    rw [segment_eq_image']
    exact ⟨s, ⟨lower, upper⟩, rfl⟩
  rw [segment_eq_Icc'] at inside
  exact inside

theorem exists_common {c d : K} (left : min u v ≤ max c d) (right : min c d ≤ max u v) :
    ∃ s t, (0 ≤ s ∧ s ≤ 1) ∧ (0 ≤ t ∧ t ≤ 1) ∧ u + s * (v - u) = c + t * (d - c) := by
  have inFirst : max (min u v) (min c d) ≤ max u v := max_le min_le_max right
  have inSecond : max (min u v) (min c d) ≤ max c d := max_le left min_le_max
  obtain ⟨s, sLow, sHigh, first⟩ := exists_between (le_max_left (min u v) (min c d)) inFirst
  obtain ⟨t, tLow, tHigh, second⟩ := exists_between (le_max_right (min u v) (min c d)) inSecond
  exact ⟨s, t, ⟨sLow, sHigh⟩, ⟨tLow, tHigh⟩, first.trans second.symm⟩

/-- If a mean of two numbers is zero, they do not have the same sign. -/
theorem mul_nonpos_of_mean {t : K} (lower : 0 ≤ t) (upper : t ≤ 1)
    (mean : (1 - t) * u + t * v = 0) : u * v ≤ 0 := by
  have rest : 0 ≤ 1 - t := by linarith
  have first : (1 - t) * (u * v) = -(t * v ^ 2) := by linear_combination v * mean
  have second : t * (u * v) = -((1 - t) * u ^ 2) := by linear_combination u * mean
  have firstSign := mul_nonneg lower (sq_nonneg v)
  have secondSign := mul_nonneg rest (sq_nonneg u)
  linarith

/-- Where a line between two values of different signs is zero. -/
theorem exists_root (signs : u * v ≤ 0) (differ : u ≠ v) : 0 ≤ u / (u - v) ∧ u / (u - v) ≤ 1 := by
  have nonzero : u - v ≠ 0 := sub_ne_zero.mpr differ
  have positive : 0 < (u - v) ^ 2 := by positivity
  have scaled : u / (u - v) * (u - v) ^ 2 = u ^ 2 - u * v := by
    field_simp
  have first := sq_nonneg u
  have second := sq_nonneg v
  constructor
  · by_contra negative
    have product := mul_neg_of_neg_of_pos (not_le.mp negative) positive
    rw [scaled] at product
    linarith
  · by_contra large
    have product := mul_lt_mul_of_pos_right (not_le.mp large) positive
    rw [scaled] at product
    linarith [sub_sq u v]

end Intervals

section Segments

variable {a b c d : K × K}

/-- The bounding boxes of two segments meet. -/
structure BoxesMeet (a b c d : K × K) : Prop where
  left : min c.1 d.1 ≤ max a.1 b.1
  right : min a.1 b.1 ≤ max c.1 d.1
  below : min c.2 d.2 ≤ max a.2 b.2
  above : min a.2 b.2 ≤ max c.2 d.2

/-- The two segments straddle the lines of each other. -/
structure Straddle (a b c d : K × K) : Prop where
  first : cross a b c * cross a b d ≤ 0
  second : cross c d a * cross c d b ≤ 0

theorem boxesMeet_of_common {s t : K} (sRange : 0 ≤ s ∧ s ≤ 1) (tRange : 0 ≤ t ∧ t ≤ 1)
    (common : along a b s = along c d t) : BoxesMeet a b c d := by
  have sameX : a.1 + s * (b.1 - a.1) = c.1 + t * (d.1 - c.1) := congrArg Prod.fst common
  have sameY : a.2 + s * (b.2 - a.2) = c.2 + t * (d.2 - c.2) := congrArg Prod.snd common
  obtain ⟨firstX, lastX⟩ := @between_along K _ _ _ a.1 b.1 s sRange.1 sRange.2
  obtain ⟨firstY, lastY⟩ := @between_along K _ _ _ a.2 b.2 s sRange.1 sRange.2
  obtain ⟨otherX, otherLastX⟩ := @between_along K _ _ _ c.1 d.1 t tRange.1 tRange.2
  obtain ⟨otherY, otherLastY⟩ := @between_along K _ _ _ c.2 d.2 t tRange.1 tRange.2
  rw [sameX] at firstX lastX
  rw [sameY] at firstY lastY
  exact ⟨otherX.trans lastX, firstX.trans otherLastX, otherY.trans lastY, firstY.trans otherLastY⟩

theorem exists_common_of_ne (straddle : Straddle a b c d) (differ : cross a b c ≠ cross a b d) :
    ∃ s t, (0 ≤ s ∧ s ≤ 1) ∧ (0 ≤ t ∧ t ≤ 1) ∧ along a b s = along c d t := by
  have sameTurn : cross c d a - cross c d b = cross a b d - cross a b c := by
    simp only [cross]
    ring
  have otherDiffer : cross c d a ≠ cross c d b := by
    intro same
    rw [same, sub_self] at sameTurn
    exact differ (sub_eq_zero.mp sameTurn.symm).symm
  refine ⟨_, _, exists_root straddle.second otherDiffer, exists_root straddle.first differ, ?_⟩
  have nonzero : cross a b c - cross a b d ≠ 0 := sub_ne_zero.mpr differ
  rw [sameTurn, ← neg_sub (cross a b c), div_neg]
  ext
  · simp only [along]
    field_simp
    simp only [cross]
    ring
  · simp only [along]
    field_simp
    simp only [cross]
    ring

theorem exists_common_of_collinear (boxes : BoxesMeet a b c d) (onFirst : cross a b c = 0)
    (onFirst' : cross a b d = 0) (onSecond : cross c d a = 0) :
    ∃ s t, (0 ≤ s ∧ s ≤ 1) ∧ (0 ≤ t ∧ t ≤ 1) ∧ along a b s = along c d t := by
  simp only [cross] at onFirst onFirst' onSecond
  by_cases vertical : b.1 - a.1 = 0 ∧ d.1 - c.1 = 0
  · obtain ⟨s, t, sRange, tRange, same⟩ := exists_common boxes.above boxes.below
    have aligned : a.1 = c.1 := by
      have left := boxes.left
      have right := boxes.right
      rw [sub_eq_zero.mp vertical.1, sub_eq_zero.mp vertical.2, min_self, max_self] at left right
      rw [← sub_eq_zero.mp vertical.1, ← sub_eq_zero.mp vertical.2]
      exact le_antisymm (by linarith [sub_eq_zero.mp vertical.1, sub_eq_zero.mp vertical.2])
        (by linarith [sub_eq_zero.mp vertical.1, sub_eq_zero.mp vertical.2])
    refine ⟨s, t, sRange, tRange, Prod.ext ?_ same⟩
    simp only [along, vertical.1, vertical.2, mul_zero, add_zero]
    exact aligned
  · obtain ⟨s, t, sRange, tRange, same⟩ := exists_common boxes.right boxes.left
    refine ⟨s, t, sRange, tRange, Prod.ext same ?_⟩
    -- The difference of the two points is vertical and parallel to both segments.
    have first : (b.1 - a.1) * ((a.2 + s * (b.2 - a.2)) - (c.2 + t * (d.2 - c.2))) = 0 := by
      linear_combination (b.2 - a.2) * same - (1 - t) * onFirst - t * onFirst'
    have second : (d.1 - c.1) * ((a.2 + s * (b.2 - a.2)) - (c.2 + t * (d.2 - c.2))) = 0 := by
      linear_combination (d.2 - c.2) * same + onSecond - s * (onFirst' - onFirst)
    rcases not_and_or.mp vertical with wide | wide
    · exact sub_eq_zero.mp ((mul_eq_zero.mp first).resolve_left wide)
    · exact sub_eq_zero.mp ((mul_eq_zero.mp second).resolve_left wide)

/-- Two segments have a common point exactly when their boxes meet and they straddle each
other's lines. -/
theorem segments_meet_iff :
    (segment K a b ∩ segment K c d).Nonempty ↔ BoxesMeet a b c d ∧ Straddle a b c d := by
  constructor
  · rintro ⟨p, onFirst, onSecond⟩
    obtain ⟨s, sLow, sHigh, isFirst⟩ := mem_segment_iff.mp onFirst
    obtain ⟨t, tLow, tHigh, isSecond⟩ := mem_segment_iff.mp onSecond
    have common : along a b s = along c d t := isFirst.trans isSecond.symm
    refine ⟨boxesMeet_of_common ⟨sLow, sHigh⟩ ⟨tLow, tHigh⟩ common, ?_, ?_⟩
    · refine mul_nonpos_of_mean tLow tHigh ?_
      rw [← cross_along, ← common, cross_along_self]
    · refine mul_nonpos_of_mean sLow sHigh ?_
      rw [← cross_along, common, cross_along_self]
  · rintro ⟨boxes, straddle⟩
    have found : ∃ s t, (0 ≤ s ∧ s ≤ 1) ∧ (0 ≤ t ∧ t ≤ 1) ∧ along a b s = along c d t := by
      by_cases parallel : cross a b c = cross a b d
      · have turn : cross c d a - cross c d b = cross a b d - cross a b c := by
          simp only [cross]
          ring
        have otherParallel : cross c d a = cross c d b := by
          rw [parallel, sub_self] at turn
          exact sub_eq_zero.mp turn
        have square := straddle.first
        have otherSquare := straddle.second
        rw [parallel] at square
        rw [← otherParallel] at otherSquare
        have onFirst' : cross a b d = 0 :=
          mul_self_eq_zero.mp (le_antisymm square (mul_self_nonneg _))
        exact exists_common_of_collinear boxes (parallel.trans onFirst') onFirst'
          (mul_self_eq_zero.mp (le_antisymm otherSquare (mul_self_nonneg _)))
      · exact exists_common_of_ne straddle parallel
    obtain ⟨s, t, ⟨sLow, sHigh⟩, ⟨tLow, tHigh⟩, common⟩ := found
    exact ⟨along a b s, mem_segment_iff.mpr ⟨s, sLow, sHigh, rfl⟩,
      mem_segment_iff.mpr ⟨t, tLow, tHigh, common.symm⟩⟩

end Segments

section Rectangles

/-- Linear functions that end without being negative are all from some time on, and one
of them is zero then unless this holds from the beginning. -/
theorem exists_entry (functions : List (K × K)) (ends : ∀ g ∈ functions, 0 ≤ g.2) :
    ∃ s, 0 ≤ s ∧ s ≤ 1 ∧ (∀ g ∈ functions, 0 ≤ g.1 + s * (g.2 - g.1)) ∧
      (s = 0 ∨ ∃ g ∈ functions, g.1 + s * (g.2 - g.1) = 0) := by
  induction functions with
  | nil => exact ⟨0, le_rfl, zero_le_one, by simp, Or.inl rfl⟩
  | cons g functions ih =>
      obtain ⟨s, low, high, inside, first⟩ := ih fun other member =>
        ends other (List.mem_cons_of_mem g member)
      have last := ends g List.mem_cons_self
      by_cases already : 0 ≤ g.1 + s * (g.2 - g.1)
      · refine ⟨s, low, high, ?_, first.imp_right ?_⟩
        · exact List.forall_mem_cons.mpr ⟨already, inside⟩
        · rintro ⟨other, member, isZero⟩
          exact ⟨other, List.mem_cons_of_mem g member, isZero⟩
      · -- The new function becomes zero later, at `t`.
        have before := not_le.mp already
        have rises : 0 < g.2 - g.1 := by
          by_contra falls
          have product := mul_le_mul_of_nonpos_right high (not_lt.mp falls)
          linarith
        have isZero : g.1 + -g.1 / (g.2 - g.1) * (g.2 - g.1) = 0 := by
          rw [div_mul_cancel₀ _ rises.ne', add_neg_cancel]
        have later : s ≤ -g.1 / (g.2 - g.1) := by
          rw [le_div_iff₀ rises]
          linarith
        have atMost : -g.1 / (g.2 - g.1) ≤ 1 := by
          rw [div_le_one rises]
          linarith
        refine ⟨_, low.trans later, atMost, ?_, Or.inr ⟨g, List.mem_cons_self, isZero⟩⟩
        refine List.forall_mem_cons.mpr ⟨isZero.ge, fun other member => ?_⟩
        have now := inside other member
        have finally_ := ends other (List.mem_cons_of_mem g member)
        rcases le_total 0 (other.2 - other.1) with up | down
        · have product := mul_le_mul_of_nonneg_right later up
          linarith
        · have product := mul_le_mul_of_nonpos_right atMost down
          linarith

variable {n e bl tr q : K × K}

theorem mem_edge_vertical {x : K} (isX : q.1 = x) (inside : q ∈ Set.Icc bl tr) :
    q ∈ segment K (x, bl.2) (x, tr.2) := by
  have lower := (Prod.le_def.mp inside.1).2
  have upper := (Prod.le_def.mp inside.2).2
  obtain ⟨s, low, high, isPoint⟩ :=
    exists_between ((min_le_left bl.2 tr.2).trans lower) (upper.trans (le_max_right bl.2 tr.2))
  refine mem_segment_iff.mpr ⟨s, low, high, Prod.ext ?_ isPoint⟩
  simp [along, isX]

theorem mem_edge_horizontal {y : K} (isY : q.2 = y) (inside : q ∈ Set.Icc bl tr) :
    q ∈ segment K (bl.1, y) (tr.1, y) := by
  have lower := (Prod.le_def.mp inside.1).1
  have upper := (Prod.le_def.mp inside.2).1
  obtain ⟨s, low, high, isPoint⟩ :=
    exists_between ((min_le_left bl.1 tr.1).trans lower) (upper.trans (le_max_right bl.1 tr.1))
  refine mem_segment_iff.mpr ⟨s, low, high, Prod.ext isPoint ?_⟩
  simp [along, isY]

theorem segment_subset_rectangle {u v : K × K} (first : u ∈ Set.Icc bl tr)
    (last : v ∈ Set.Icc bl tr) : segment K u v ⊆ Set.Icc bl tr := by
  intro p onSegment
  obtain ⟨s, low, high, rfl⟩ := mem_segment_iff.mp onSegment
  obtain ⟨leftX, rightX⟩ := @between_along K _ _ _ u.1 v.1 s low high
  obtain ⟨leftY, rightY⟩ := @between_along K _ _ _ u.2 v.2 s low high
  exact ⟨⟨(le_min first.1.1 last.1.1).trans leftX, (le_min first.1.2 last.1.2).trans leftY⟩,
    ⟨rightX.trans (max_le first.2.1 last.2.1), rightY.trans (max_le first.2.2 last.2.2)⟩⟩

/-- The segment meets one of the four edges of the rectangle. -/
def MeetsEdge (n e bl tr : K × K) : Prop :=
  (segment K n e ∩ segment K (bl.1, bl.2) (bl.1, tr.2)).Nonempty ∨
    (segment K n e ∩ segment K (bl.1, tr.2) (tr.1, tr.2)).Nonempty ∨
    (segment K n e ∩ segment K (tr.1, tr.2) (tr.1, bl.2)).Nonempty ∨
    (segment K n e ∩ segment K (tr.1, bl.2) (bl.1, bl.2)).Nonempty

theorem MeetsEdge.meets (ordered : bl ≤ tr) (edge : MeetsEdge n e bl tr) :
    (segment K n e ∩ Set.Icc bl tr).Nonempty := by
  have p1 : (bl.1, bl.2) ∈ Set.Icc bl tr := ⟨le_rfl, ordered⟩
  have p2 : (bl.1, tr.2) ∈ Set.Icc bl tr := ⟨⟨le_rfl, ordered.2⟩, ⟨ordered.1, le_rfl⟩⟩
  have p3 : (tr.1, tr.2) ∈ Set.Icc bl tr := ⟨ordered, le_rfl⟩
  have p4 : (tr.1, bl.2) ∈ Set.Icc bl tr := ⟨⟨ordered.1, le_rfl⟩, ⟨le_rfl, ordered.2⟩⟩
  rcases edge with left | top | right | bottom
  · exact left.mono (Set.inter_subset_inter_right _ (segment_subset_rectangle p1 p2))
  · exact top.mono (Set.inter_subset_inter_right _ (segment_subset_rectangle p2 p3))
  · exact right.mono (Set.inter_subset_inter_right _ (segment_subset_rectangle p3 p4))
  · exact bottom.mono (Set.inter_subset_inter_right _ (segment_subset_rectangle p4 p1))

/-- A segment on its way to a point of the rectangle begins there or crosses an edge. -/
theorem meetsEdge_of_mem {p : K × K} (onSegment : p ∈ segment K n e)
    (inside : p ∈ Set.Icc bl tr) : n ∈ Set.Icc bl tr ∨ MeetsEdge n e bl tr := by
  obtain ⟨⟨left, bottom⟩, ⟨right, top⟩⟩ := inside
  obtain ⟨s, low, high, within, first⟩ := exists_entry
    [(n.1 - bl.1, p.1 - bl.1), (tr.1 - n.1, tr.1 - p.1),
      (n.2 - bl.2, p.2 - bl.2), (tr.2 - n.2, tr.2 - p.2)]
    (by simp only [List.forall_mem_cons, List.not_mem_nil, sub_nonneg]; tauto)
  simp only [List.forall_mem_cons, List.exists_mem_cons_iff, List.not_mem_nil] at within first
  obtain ⟨fromLeft, fromRight, fromBottom, fromTop, -⟩ := within
  -- The point where the segment enters.
  have enters : along n p s ∈ Set.Icc bl tr := by
    refine ⟨⟨?_, ?_⟩, ⟨?_, ?_⟩⟩ <;> simp only [along] <;> linarith
  have onWay : along n p s ∈ segment K n e :=
    (convex_segment n e).segment_subset (left_mem_segment K n e) onSegment
      (mem_segment_iff.mpr ⟨s, low, high, rfl⟩)
  rcases first with isStart | atLeft | atRight | atBottom | atTop | none
  · left
    rw [isStart] at enters
    simpa only [along, zero_mul, add_zero] using enters
  · have isX : (along n p s).1 = bl.1 := by
      simp only [along]
      linarith
    exact Or.inr (Or.inl ⟨_, onWay, mem_edge_vertical isX enters⟩)
  · have isX : (along n p s).1 = tr.1 := by
      simp only [along]
      linarith
    have edge := mem_edge_vertical isX enters
    rw [segment_symm] at edge
    exact Or.inr (Or.inr (Or.inr (Or.inl ⟨_, onWay, edge⟩)))
  · have isY : (along n p s).2 = bl.2 := by
      simp only [along]
      linarith
    have edge := mem_edge_horizontal isY enters
    rw [segment_symm] at edge
    exact Or.inr (Or.inr (Or.inr (Or.inr ⟨_, onWay, edge⟩)))
  · have isY : (along n p s).2 = tr.2 := by
      simp only [along]
      linarith
    exact Or.inr (Or.inr (Or.inl ⟨_, onWay, mem_edge_horizontal isY enters⟩))
  · simp at none

/-- A segment has a point in a rectangle exactly when it begins there or meets an edge. -/
theorem segment_meets_rectangle_iff (ordered : bl ≤ tr) :
    (segment K n e ∩ Set.Icc bl tr).Nonempty ↔ n ∈ Set.Icc bl tr ∨ MeetsEdge n e bl tr := by
  constructor
  · rintro ⟨p, onSegment, inside⟩
    exact meetsEdge_of_mem onSegment inside
  · rintro (start | edge)
    · exact ⟨n, left_mem_segment K n e, start⟩
    · exact edge.meets ordered

end Rectangles

end SegmentGeometry

end LuaServer
