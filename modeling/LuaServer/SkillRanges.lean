import LuaServer.FacingAreas
import Mathlib.Analysis.InnerProductSpace.PiL2

/-!
# Areas of skills

The areas take the direction of the caster from the point `(d.y_, d.y_)` instead of `d`.
Numbers are real here, and the quotient of two zeros is not a number, which no comparison
accepts.
-/

noncomputable section

namespace LuaServer

namespace SkillRanges

open FacingAreas InnerProductGeometry

/-- `Range::Vec`. -/
@[ext]
structure Vec where
  x_ : ℝ
  y_ : ℝ

namespace Vec

/-- `Vec::m`. -/
def m (v : Vec) : ℝ :=
  Real.sqrt (v.x_ * v.x_ + v.y_ * v.y_)

end Vec

/-- `Range::rad`. -/
def rad (ang : ℝ) : ℝ :=
  ang / 180 * Real.pi

/-- `Range::mul`. -/
def mul (v1 v2 : Vec) : ℝ :=
  v1.x_ * v2.x_ + v1.y_ * v2.y_

/-- `Range::cosv_2vec`, `none` when it is not a number. -/
def cosv2vec (v1 v2 : Vec) : Option ℝ :=
  if v1.m * v2.m = 0 then none else some (mul v1 v2 / (v1.m * v2.m))

/-- `Range::cosv_3vec`. -/
def cosv3vec (v1 v2 v3 : Vec) : Option ℝ :=
  let v12 : Vec := ⟨v2.x_ - v1.x_, v2.y_ - v1.y_⟩
  let v13 : Vec := ⟨v3.x_ - v1.x_, v3.y_ - v1.y_⟩
  cosv2vec v12 v13

/-- `Range::circle`. -/
def circle (p : Vec) (r : ℝ) (p1 : Vec) : Bool :=
  let dx := p1.x_ - p.x_
  let dy := p1.y_ - p.y_
  decide (r * r ≥ dx * dx + dy * dy)

/-- `Range::sector`. -/
def sector (p d : Vec) (r ang : ℝ) (p1 : Vec) : Bool :=
  if !circle p r p1 then false
  else
    let dp : Vec := ⟨p.x_ + d.y_, p.y_ + d.y_⟩
    match cosv3vec p dp p1 with
    | none => false
    | some cosv => decide (cosv ≥ Real.cos (rad ang))

/-- `Range::rectangle`. -/
def rectangle (p d : Vec) (l w : ℝ) (p1 : Vec) : Bool :=
  let dp : Vec := ⟨p.x_ + d.y_, p.y_ + d.y_⟩
  match cosv3vec p dp p1 with
  | none => false
  | some cosv =>
      let dis : Vec := ⟨p1.x_ - p.x_, p1.y_ - p.y_⟩
      let dism := dis.m
      let rx := dism * cosv
      let ry := dism * Real.sin (Real.arccos cosv)
      decide (0 ≤ rx ∧ rx ≤ l ∧ 0 ≤ ry ∧ ry ≤ w)

/-- A vector as a point of the plane. -/
def toPlane (v : Vec) : EuclideanSpace ℝ (Fin 2) :=
  !₂[v.x_, v.y_]

/-- The direction that the areas look in. -/
def diagonal (d : Vec) : Vec :=
  ⟨d.y_, d.y_⟩

/-- A quarter turn to the left. -/
def turn (v : Vec) : Vec :=
  ⟨-v.y_, v.x_⟩

/-- The target behind a quarter turn around `p`. -/
def turnAround (p q : Vec) : Vec :=
  ⟨p.x_ - (q.y_ - p.y_), p.y_ + (q.x_ - p.x_)⟩

section Plane

variable {v u p d q : Vec}

theorem norm_toPlane (v : Vec) : ‖toPlane v‖ = v.m := by
  rw [EuclideanSpace.norm_eq, Vec.m, Fin.sum_univ_two]
  congr 1
  simp only [toPlane, Real.norm_eq_abs, sq_abs]
  simp [sq]

theorem inner_toPlane (v u : Vec) : inner ℝ (toPlane v) (toPlane u) = mul v u := by
  simp [toPlane, mul, PiLp.inner_apply, Fin.sum_univ_two, mul_comm]

theorem toPlane_sub (v u : Vec) : toPlane v - toPlane u = toPlane ⟨v.x_ - u.x_, v.y_ - u.y_⟩ := by
  ext i
  fin_cases i <;> simp [toPlane]

theorem toPlane_eq_zero : toPlane v = 0 ↔ v = ⟨0, 0⟩ := by
  constructor
  · intro isZero
    ext
    · simpa [toPlane] using congrArg (fun point => point 0) isZero
    · simpa [toPlane] using congrArg (fun point => point 1) isZero
  · rintro rfl
    ext i
    fin_cases i <;> simp [toPlane]

theorem diagonal_eq_zero : toPlane (diagonal d) = 0 ↔ d.y_ = 0 := by
  rw [toPlane_eq_zero, diagonal, Vec.mk.injEq, and_self]

theorem sub_ne_zero_of_ne (apart : q ≠ p) : toPlane q - toPlane p ≠ 0 := by
  rw [toPlane_sub, ne_eq, toPlane_eq_zero, Vec.mk.injEq, not_and]
  intro sameX sameY
  exact apart (Vec.ext (sub_eq_zero.mp sameX) (sub_eq_zero.mp sameY))

theorem cosv_eq (apart : q ≠ p) : cosv3vec p ⟨p.x_ + d.y_, p.y_ + d.y_⟩ q =
    if d.y_ = 0 then none
    else some (inner ℝ (toPlane (diagonal d)) (toPlane q - toPlane p) /
      (‖toPlane (diagonal d)‖ * ‖toPlane q - toPlane p‖)) := by
  have target : ‖toPlane q - toPlane p‖ ≠ 0 := norm_ne_zero_iff.mpr (sub_ne_zero_of_ne apart)
  have zero : ‖toPlane (diagonal d)‖ * ‖toPlane q - toPlane p‖ = 0 ↔ d.y_ = 0 := by
    rw [mul_eq_zero, or_iff_left target, norm_eq_zero, diagonal_eq_zero]
  simp only [cosv3vec, cosv2vec, add_sub_cancel_left]
  rw [toPlane_sub, norm_toPlane, norm_toPlane] at zero
  rw [toPlane_sub, norm_toPlane, norm_toPlane, inner_toPlane]
  simp only [diagonal] at zero ⊢
  simp only [zero]

theorem circle_iff {r : ℝ} (nonneg : 0 ≤ r) :
    circle p r q = true ↔ dist (toPlane q) (toPlane p) ≤ r := by
  rw [dist_eq_norm, toPlane_sub, norm_toPlane, Vec.m, Real.sqrt_le_left nonneg, circle,
    decide_eq_true_iff, sq]

theorem rad_range {ang : ℝ} (range : 0 ≤ ang ∧ ang ≤ 180) : 0 ≤ rad ang ∧ rad ang ≤ Real.pi := by
  have positive := Real.pi_pos
  constructor
  · exact mul_nonneg (by linarith [range.1]) positive.le
  · rw [rad]
    exact mul_le_of_le_one_left positive.le (by linarith [range.2])

/-- The code tests the sector around the diagonal. -/
theorem sector_iff {r ang : ℝ} (apart : q ≠ p) (nonneg : 0 ≤ r) (range : 0 ≤ ang ∧ ang ≤ 180) :
    sector p d r ang q = true ↔
      d.y_ ≠ 0 ∧ InSector (toPlane p) (toPlane (diagonal d)) r (rad ang) (toPlane q) := by
  obtain ⟨lower, upper⟩ := rad_range range
  have split : InSector (toPlane p) (toPlane (diagonal d)) r (rad ang) (toPlane q) ↔
      circle p r q = true ∧ Real.cos (rad ang) ≤
        inner ℝ (toPlane (diagonal d)) (toPlane q - toPlane p) /
          (‖toPlane (diagonal d)‖ * ‖toPlane q - toPlane p‖) := by
    rw [circle_iff nonneg, ← angle_le_iff lower upper]
    exact ⟨fun inside => ⟨inside.1, inside.2⟩, fun inside => ⟨inside.1, inside.2⟩⟩
  have isCos := @cosv_eq p d q apart
  rw [split]
  by_cases flat : d.y_ = 0
  · rw [if_pos flat] at isCos
    simp only [sector, isCos]
    simp [flat]
  · rw [if_neg flat] at isCos
    by_cases inCircle : circle p r q = true
    · simp [sector, isCos, flat, inCircle]
    · simp [sector, inCircle]

/-- The code tests the rectangle along the diagonal. -/
theorem rectangle_iff {l w : ℝ} (apart : q ≠ p) :
    rectangle p d l w q = true ↔
      d.y_ ≠ 0 ∧ InRectangle (toPlane p) (toPlane (diagonal d)) l w (toPlane q) := by
  have target : ‖toPlane q - toPlane p‖ ≠ 0 := norm_ne_zero_iff.mpr (sub_ne_zero_of_ne apart)
  have isCos := @cosv_eq p d q apart
  by_cases flat : d.y_ = 0
  · rw [if_pos flat] at isCos
    simp only [rectangle, isCos]
    simp [flat]
  · rw [if_neg flat] at isCos
    have along : ‖toPlane q - toPlane p‖ *
        (inner ℝ (toPlane (diagonal d)) (toPlane q - toPlane p) /
          (‖toPlane (diagonal d)‖ * ‖toPlane q - toPlane p‖)) =
        inner ℝ (toPlane (diagonal d)) (toPlane q - toPlane p) / ‖toPlane (diagonal d)‖ := by
      have facing : ‖toPlane (diagonal d)‖ ≠ 0 :=
        norm_ne_zero_iff.mpr fun isZero => flat (diagonal_eq_zero.mp isZero)
      field_simp
    have aside : ‖toPlane q - toPlane p‖ * Real.sin (Real.arccos
        (inner ℝ (toPlane (diagonal d)) (toPlane q - toPlane p) /
          (‖toPlane (diagonal d)‖ * ‖toPlane q - toPlane p‖))) =
        Metric.infDist (toPlane q) (line (toPlane p) (toPlane (diagonal d))) :=
      (infDist_line _ _ _).symm
    have length : (⟨q.x_ - p.x_, q.y_ - p.y_⟩ : Vec).m = ‖toPlane q - toPlane p‖ := by
      rw [toPlane_sub, norm_toPlane]
    simp only [rectangle, isCos, length, along, aside, decide_eq_true_iff, ne_eq, flat,
      not_false_eq_true, true_and]
    exact ⟨fun inside => ⟨inside.1, inside.2.1, inside.2.2.2⟩,
      fun inside => ⟨inside.1, inside.2, Metric.infDist_nonneg, inside.3⟩⟩

theorem turn_view (p d q : Vec) : SameView (toPlane p) (toPlane d) (toPlane q) (toPlane p)
    (toPlane (turn d)) (toPlane (turnAround p q)) := by
  refine ⟨?_, ?_, ?_⟩
  · rw [norm_toPlane, norm_toPlane, Vec.m, Vec.m, turn]
    congr 1
    ring
  · rw [toPlane_sub, toPlane_sub, norm_toPlane, norm_toPlane, Vec.m, Vec.m, turnAround]
    congr 1
    ring
  · rw [toPlane_sub, toPlane_sub, inner_toPlane, inner_toPlane, mul, mul, turn, turnAround]
    ring

theorem turnAround_ne (apart : q ≠ p) : turnAround p q ≠ p := by
  intro same
  rw [Vec.ext_iff] at same
  simp only [turnAround] at same
  exact apart (Vec.ext (by linarith [same.2]) (by linarith [same.1]))

end Plane

/-- The areas are those around the facing. -/
structure AreasRight (p d : Vec) (r ang l w : ℝ) (q : Vec) : Prop where
  sector : sector p d r ang q = true ↔
    InSector (toPlane p) (toPlane d) r (ang / 180 * Real.pi) (toPlane q)
  rectangle : rectangle p d l w q = true ↔
    InRectangle (toPlane p) (toPlane d) l w (toPlane q)

/-- The areas are those around the facing, and turn with it. -/
structure AreasFollow (p d : Vec) (r ang l w : ℝ) (q : Vec) : Prop where
  right : AreasRight p d r ang l w q
  sectorTurned : sector p (turn d) r ang (turnAround p q) = sector p d r ang q
  rectangleTurned : rectangle p (turn d) l w (turnAround p q) = rectangle p d l w q

/-- Every target of a facing is judged right by areas of all sizes. -/
def FacingRight (d : Vec) : Prop :=
  ∀ p q r ang l w, q ≠ p → 0 ≤ r → 0 ≤ ang ∧ ang ≤ 180 → 0 ≤ l → 0 ≤ w →
    AreasRight p d r ang l w q

/-- Looking along `(d.y_, d.y_)` instead of `d` does not take the target across the border
of an area. -/
structure DiagonalFits (p d : Vec) (r ang l w : ℝ) (q : Vec) : Prop where
  sector : dist (toPlane q) (toPlane p) ≤ r →
    ((d.y_ ≠ 0 ∧ angle (toPlane (diagonal d)) (toPlane q - toPlane p) ≤ ang / 180 * Real.pi) ↔
      angle (toPlane d) (toPlane q - toPlane p) ≤ ang / 180 * Real.pi)
  rectangle : (d.y_ ≠ 0 ∧ InRectangle (toPlane p) (toPlane (diagonal d)) l w (toPlane q)) ↔
    InRectangle (toPlane p) (toPlane d) l w (toPlane q)

section Exactness

variable {p d q : Vec} {r ang l w : ℝ}

theorem areasRight_iff (apart : q ≠ p) (nonneg : 0 ≤ r) (range : 0 ≤ ang ∧ ang ≤ 180) :
    AreasRight p d r ang l w q ↔ DiagonalFits p d r ang l w q := by
  constructor
  · rintro ⟨inSector, inRectangle⟩
    rw [sector_iff apart nonneg range] at inSector
    rw [rectangle_iff apart] at inRectangle
    refine ⟨fun near => ⟨?_, ?_⟩, inRectangle⟩
    · rintro ⟨steep, inTurn⟩
      exact (inSector.mp ⟨steep, near, inTurn⟩).turn
    · intro inTurn
      obtain ⟨steep, -, turned⟩ := inSector.mpr ⟨near, inTurn⟩
      exact ⟨steep, turned⟩
  · rintro ⟨inSector, inRectangle⟩
    refine ⟨(sector_iff apart nonneg range).trans ⟨?_, ?_⟩,
      (rectangle_iff apart).trans inRectangle⟩
    · rintro ⟨steep, near, inTurn⟩
      exact ⟨near, (inSector near).mp ⟨steep, inTurn⟩⟩
    · rintro ⟨near, inTurn⟩
      obtain ⟨steep, turned⟩ := (inSector near).mpr inTurn
      exact ⟨steep, near, turned⟩

/-- Areas turn with a facing for which they are right exactly when they are right behind
the turn as well. -/
theorem areasFollow_iff : AreasFollow p d r ang l w q ↔
    AreasRight p d r ang l w q ∧ AreasRight p (turn d) r ang l w (turnAround p q) := by
  have view := turn_view p d q
  constructor
  · rintro ⟨right, sectorTurned, rectangleTurned⟩
    refine ⟨right, ?_, ?_⟩
    · rw [sectorTurned, right.sector]
      exact view.inSector
    · rw [rectangleTurned, right.rectangle]
      exact view.inRectangle
  · rintro ⟨right, behind⟩
    refine ⟨right, ?_, ?_⟩
    · rw [Bool.eq_iff_iff, behind.sector, right.sector]
      exact view.inSector.symm
    · rw [Bool.eq_iff_iff, behind.rectangle, right.rectangle]
      exact view.inRectangle.symm

/-- A facing is right for all targets exactly when it is its own diagonal: otherwise the
narrowest sector misses the target straight ahead. -/
theorem facingRight_iff (facing : d ≠ ⟨0, 0⟩) : FacingRight d ↔ d.x_ = d.y_ := by
  constructor
  · intro right
    have nonzero : toPlane d ≠ 0 := fun isZero => facing (toPlane_eq_zero.mp isZero)
    have ahead := (right ⟨0, 0⟩ d ‖toPlane d‖ 0 0 0 facing (norm_nonneg _)
      ⟨le_rfl, by norm_num⟩ le_rfl le_rfl).sector
    have origin : toPlane ⟨0, 0⟩ = 0 := toPlane_eq_zero.mpr rfl
    have inside : InSector (toPlane ⟨0, 0⟩) (toPlane d) ‖toPlane d‖ (0 / 180 * Real.pi)
        (toPlane d) := by
      refine ⟨?_, ?_⟩
      · rw [origin, dist_zero_right]
      · rw [origin, sub_zero, angle_self nonzero, zero_div, zero_mul]
    rw [sector_iff facing (norm_nonneg _) ⟨le_rfl, by norm_num⟩] at ahead
    obtain ⟨steep, -, turned⟩ := ahead.mpr inside
    rw [origin, sub_zero, rad, zero_div, zero_mul] at turned
    obtain ⟨-, c, -, same⟩ := angle_eq_zero_iff.mp (le_antisymm turned (angle_nonneg _ _))
    have sameX := congrArg (fun point => point 0) same
    have sameY := congrArg (fun point => point 1) same
    simp only [toPlane, diagonal, PiLp.smul_apply, smul_eq_mul, PiLp.toLp_apply,
      Matrix.cons_val_zero, Matrix.cons_val_one] at sameX sameY
    rw [sameX, ← sameY]
  · intro same p q r ang l w apart nonneg range _ _
    have isDiagonal : diagonal d = d := Vec.ext same.symm rfl
    have steep : d.y_ ≠ 0 := by
      intro flat
      exact facing (Vec.ext (same.trans flat) flat)
    rw [areasRight_iff apart nonneg range]
    exact ⟨fun _ => by rw [isDiagonal, and_iff_right steep],
      by rw [isDiagonal, and_iff_right steep]⟩

end Exactness

/-- The areas follow a facing where looking along the diagonal instead makes no difference,
before and behind a quarter turn.  They are right for all targets of the facings along the
diagonal, and of no others. -/
theorem areas_follow_iff (p d : Vec) (r ang l w : ℝ) (q : Vec) (facing : d ≠ ⟨0, 0⟩)
    (apart : q ≠ p) (radius : 0 ≤ r) (range : 0 ≤ ang ∧ ang ≤ 180) (_ : 0 ≤ l) (_ : 0 ≤ w) :
    (AreasFollow p d r ang l w q ↔ DiagonalFits p d r ang l w q ∧
      DiagonalFits p (turn d) r ang l w (turnAround p q)) ∧ (FacingRight d ↔ d.x_ = d.y_) := by
  rw [areasFollow_iff, areasRight_iff apart radius range,
    areasRight_iff (turnAround_ne apart) radius range]
  exact ⟨Iff.rfl, facingRight_iff facing⟩

/-- A target straight ahead of a facing along the diagonal. -/
theorem areas_follow_iff_diagonal :
    (AreasFollow ⟨0, 0⟩ ⟨1, 1⟩ 2 90 2 1 ⟨1, 1⟩ ↔ DiagonalFits ⟨0, 0⟩ ⟨1, 1⟩ 2 90 2 1 ⟨1, 1⟩ ∧
      DiagonalFits ⟨0, 0⟩ (turn ⟨1, 1⟩) 2 90 2 1 (turnAround ⟨0, 0⟩ ⟨1, 1⟩)) ∧
      (FacingRight ⟨1, 1⟩ ↔ (1 : ℝ) = 1) :=
  areas_follow_iff ⟨0, 0⟩ ⟨1, 1⟩ 2 90 2 1 ⟨1, 1⟩ (by simp) (by simp) (by norm_num) (by norm_num)
    (by norm_num) (by norm_num)

/-- A target straight ahead of a caster that looks upwards is not in its sector of 30
degrees. -/
theorem not_areas_follow : ¬ AreasFollow ⟨0, 0⟩ ⟨0, 1⟩ 1 30 1 1 ⟨0, 1⟩ := by
  rintro ⟨⟨inSector, -⟩, -, -⟩
  have origin : toPlane ⟨0, 0⟩ = 0 := toPlane_eq_zero.mpr rfl
  have length : ‖toPlane ⟨0, 1⟩‖ = 1 := by
    rw [norm_toPlane, Vec.m]
    norm_num
  have nonzero : toPlane ⟨0, 1⟩ ≠ 0 := by
    rw [ne_eq, toPlane_eq_zero]
    simp
  have sixth : (30 : ℝ) / 180 * Real.pi = Real.pi / 6 := by ring
  have positive := Real.pi_pos
  have ahead : InSector (toPlane ⟨0, 0⟩) (toPlane ⟨0, 1⟩) 1 (30 / 180 * Real.pi)
      (toPlane ⟨0, 1⟩) := by
    refine ⟨?_, ?_⟩
    · rw [origin, dist_zero_right, length]
    · rw [origin, sub_zero, angle_self nonzero, sixth]
      positivity
  obtain ⟨-, -, turned⟩ := (sector_iff (by simp) (by norm_num) (by norm_num)).mp
    (inSector.mpr ahead)
  -- The angle to the diagonal is 45 degrees.
  have diagonalLength : ‖toPlane (diagonal ⟨0, 1⟩)‖ = Real.sqrt 2 := by
    rw [norm_toPlane, Vec.m, diagonal]
    norm_num
  rw [rad, sixth, origin, sub_zero, angle_le_iff (by positivity) (by linarith),
    Real.cos_pi_div_six, length, diagonalLength, inner_toPlane, mul_one] at turned
  simp only [mul, diagonal, mul_zero, zero_add, mul_one] at turned
  rw [le_div_iff₀ (Real.sqrt_pos.mpr two_pos)] at turned
  have root : Real.sqrt 3 * Real.sqrt 2 = Real.sqrt 6 := by
    rw [← Real.sqrt_mul (by norm_num)]
    norm_num
  have small : Real.sqrt 6 ≤ 2 := by linarith
  rw [Real.sqrt_le_left (by norm_num)] at small
  norm_num at small

end SkillRanges

end LuaServer

end
