import Mathlib.Geometry.Euclidean.Angle.Unoriented.Basic
import Mathlib.Topology.MetricSpace.HausdorffDistance

/-!
# Areas in front of a facing

A sector holds the points near enough to its corner in directions near enough to the
facing.  A rectangle holds the points in front of its base and near enough to the line
of the facing.  Both are given by distances and angles alone.
-/

noncomputable section

namespace LuaServer

namespace FacingAreas

open InnerProductGeometry

variable {V : Type*} [NormedAddCommGroup V] [InnerProductSpace ℝ V]

/-- The line through `p` along `d`. -/
def line (p d : V) : Set V :=
  Set.range fun t : ℝ => p + t • d

/-- The sector of radius `r` and half-angle `a`. -/
structure InSector (p d : V) (r a : ℝ) (q : V) : Prop where
  near : dist q p ≤ r
  turn : angle d (q - p) ≤ a

/-- The rectangle of length `l` that reaches `w` to both sides. -/
structure InRectangle (p d : V) (l w : ℝ) (q : V) : Prop where
  front : 0 ≤ inner ℝ d (q - p) / ‖d‖
  length : inner ℝ d (q - p) / ‖d‖ ≤ l
  width : Metric.infDist q (line p d) ≤ w

section Angles

variable {d v : V} {a : ℝ}

theorem angle_le_iff (lower : 0 ≤ a) (upper : a ≤ Real.pi) :
    angle d v ≤ a ↔ Real.cos a ≤ inner ℝ d v / (‖d‖ * ‖v‖) := by
  rw [← cos_angle]
  exact (Real.strictAntiOn_cos.le_iff_ge ⟨lower, upper⟩
    ⟨angle_nonneg d v, angle_le_pi d v⟩).symm

theorem sq_sin_angle (d v : V) :
    (‖v‖ * Real.sin (angle d v) * ‖d‖) ^ 2 = ‖d‖ ^ 2 * ‖v‖ ^ 2 - inner ℝ d v ^ 2 := by
  have cosine := cos_angle_mul_norm_mul_norm d v
  have sine := Real.sin_sq_add_cos_sq (angle d v)
  rw [← cosine]
  linear_combination (‖d‖ ^ 2 * ‖v‖ ^ 2) * sine

theorem sq_norm_sub_smul (d v : V) (t : ℝ) : (‖v - t • d‖ * ‖d‖) ^ 2 =
    (‖v‖ * Real.sin (angle d v) * ‖d‖) ^ 2 + (t * ‖d‖ ^ 2 - inner ℝ d v) ^ 2 := by
  have expanded : ‖v - t • d‖ ^ 2 = ‖v‖ ^ 2 - 2 * (t * inner ℝ d v) + t ^ 2 * ‖d‖ ^ 2 := by
    rw [norm_sub_sq_real, inner_smul_right, real_inner_comm, norm_smul, mul_pow, Real.norm_eq_abs,
      sq_abs]
  rw [mul_pow, expanded, sq_sin_angle]
  ring

theorem norm_mul_sin_nonneg (d v : V) : 0 ≤ ‖v‖ * Real.sin (angle d v) :=
  mul_nonneg (norm_nonneg v) (sin_angle_nonneg d v)

end Angles

/-- The distance of a point from a line by its angle. -/
theorem infDist_line (p d q : V) :
    Metric.infDist q (line p d) = ‖q - p‖ * Real.sin (angle d (q - p)) := by
  have distance : ∀ t : ℝ, dist q (p + t • d) = ‖q - p - t • d‖ := by
    intro t
    rw [dist_eq_norm, sub_sub]
  have nonneg := norm_mul_sin_nonneg d (q - p)
  by_cases isZero : d = 0
  · have isPoint : line p d = {p} := by
      simp [line, isZero]
    rw [isPoint, Metric.infDist_singleton, isZero, angle_zero_left, Real.sin_pi_div_two, mul_one,
      dist_eq_norm]
  · have positive : 0 < ‖d‖ := norm_pos_iff.mpr isZero
    apply le_antisymm
    · -- The nearest point is the one below the target.
      have onLine : p + (inner ℝ d (q - p) / ‖d‖ ^ 2) • d ∈ line p d := ⟨_, rfl⟩
      refine (Metric.infDist_le_dist_of_mem onLine).trans (le_of_eq ?_)
      have square := sq_norm_sub_smul d (q - p) (inner ℝ d (q - p) / ‖d‖ ^ 2)
      rw [div_mul_cancel₀ _ (pow_ne_zero 2 positive.ne'), sub_self, zero_pow two_ne_zero,
        add_zero] at square
      rw [distance]
      exact mul_right_cancel₀ positive.ne' ((sq_eq_sq₀ (by positivity)
        (mul_nonneg nonneg positive.le)).mp square)
    · have nonempty : (line p d).Nonempty := ⟨p + (0 : ℝ) • d, 0, rfl⟩
      rw [Metric.le_infDist nonempty]
      rintro _ ⟨t, rfl⟩
      have square := sq_norm_sub_smul d (q - p) t
      have small : (‖q - p‖ * Real.sin (angle d (q - p)) * ‖d‖) ^ 2 ≤
          (‖q - p - t • d‖ * ‖d‖) ^ 2 := by
        rw [square]
        exact le_add_of_nonneg_right (sq_nonneg _)
      simp only [distance]
      exact le_of_mul_le_mul_right ((sq_le_sq₀ (mul_nonneg nonneg positive.le)
        (by positivity)).mp small) positive

section Congruence

variable {p d q p' d' q' : V}

/-- What an area tells of a facing and a target: two lengths and an inner product. -/
structure SameView (p d q p' d' q' : V) : Prop where
  facing : ‖d‖ = ‖d'‖
  distance : ‖q - p‖ = ‖q' - p'‖
  inner : inner ℝ d (q - p) = inner ℝ d' (q' - p')

theorem SameView.angle (same : SameView p d q p' d' q') : angle d (q - p) = angle d' (q' - p') := by
  rw [InnerProductGeometry.angle, InnerProductGeometry.angle, same.facing, same.distance,
    same.inner]

theorem SameView.inSector (same : SameView p d q p' d' q') {r a : ℝ} :
    InSector p d r a q ↔ InSector p' d' r a q' := by
  constructor
  · rintro ⟨near, turn⟩
    rw [dist_eq_norm, same.distance] at near
    rw [same.angle] at turn
    exact ⟨by rwa [dist_eq_norm], turn⟩
  · rintro ⟨near, turn⟩
    rw [dist_eq_norm, ← same.distance] at near
    rw [← same.angle] at turn
    exact ⟨by rwa [dist_eq_norm], turn⟩

theorem SameView.inRectangle (same : SameView p d q p' d' q') {l w : ℝ} :
    InRectangle p d l w q ↔ InRectangle p' d' l w q' := by
  have side : Metric.infDist q (line p d) = Metric.infDist q' (line p' d') := by
    rw [infDist_line, infDist_line, same.distance, same.angle]
  constructor
  · rintro ⟨front, length, width⟩
    rw [same.inner, same.facing] at front length
    rw [side] at width
    exact ⟨front, length, width⟩
  · rintro ⟨front, length, width⟩
    rw [← same.inner, ← same.facing] at front length
    rw [← side] at width
    exact ⟨front, length, width⟩

end Congruence

end FacingAreas

end LuaServer

end
