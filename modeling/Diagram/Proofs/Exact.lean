import Mathlib
import Diagram.Geometry

/-!
# Exact coordinates

Over the real numbers arithmetic is exact: a point that is kept relative to another is the
same point, and the distance from a point to a box is zero in the box and nowhere else.
-/

namespace Diagram

/-- Every real number is finite; it is rounded to the nearest whole number, and a half away
from zero. -/
noncomputable instance : Metric ℝ where
  ltDecidable := inferInstance
  leDecidable := inferInstance
  isFinite _ := true
  nearest x := if 0 ≤ x then ⌊x + 1 / 2⌋ else ⌈x - 1 / 2⌉
  hypot x y := √(x * x + y * y)
  sin := Real.sin
  cos := Real.cos
  pi := Real.pi

theorem scalar_max_eq (a b : ℝ) : Scalar.max a b = max a b := by
  rw [Scalar.max, max_def_lt]
  simp only [le_refl, not_true_eq_false, or_false]

theorem hypot_nonneg (x y : ℝ) : 0 ≤ Metric.hypot x y := Real.sqrt_nonneg _

/-- Only the vector without components has no length. -/
theorem hypot_eq_zero_iff {x y : ℝ} : Metric.hypot x y = 0 ↔ x = 0 ∧ y = 0 := by
  have hlength := add_nonneg (mul_self_nonneg x) (mul_self_nonneg y)
  exact (Real.sqrt_eq_zero hlength).trans mul_self_add_mul_self_eq_zero

/-- A point that is kept relative to another is the same point. -/
theorem add_offset_eq (o p : Point ℝ) :
    (⟨o.x + (p.sub o).x, o.y + (p.sub o).y⟩ : Point ℝ) = p := by
  simp only [Point.sub, add_sub_cancel]

namespace Box

/-- The points of a box, its border included.  A negative size extends to the other side of
the corner. -/
def region (b : Box ℝ) : Set (Point ℝ) :=
  { p | p.x ∈ Set.uIcc b.x (b.x + b.width) ∧ p.y ∈ Set.uIcc b.y (b.y + b.height) }

theorem mem_region_iff {b : Box ℝ} {p : Point ℝ} : p ∈ b.region ↔
    p.x ∈ Set.uIcc b.x (b.x + b.width) ∧ p.y ∈ Set.uIcc b.y (b.y + b.height) := Iff.rfl

/-- Boxes with a gap between them have no point in common. -/
theorem disjoint_region_of_gap {a b : Box ℝ}
    (h : max a.x (a.x + a.width) < min b.x (b.x + b.width)) : Disjoint a.region b.region :=
  Set.disjoint_left.mpr fun _ hpa hpb => ((hpa.1.2.trans_lt h).trans_le hpb.1.1).false

theorem interval_eq (start size : ℝ) :
    interval start size = (min start (start + size), max start (start + size)) := by
  simp only [interval]
  split
  · next h => rw [min_eq_left h, max_eq_right h]
  · next h => rw [min_eq_right (not_le.mp h).le, max_eq_left (not_le.mp h).le]

theorem outside_eq (ends : ℝ × ℝ) (p : ℝ) :
    outside ends p = max (max (ends.1 - p) 0) (p - ends.2) := by
  rw [outside, scalar_max_eq, scalar_max_eq, Scalar.zero, Scalar.ofNat, Nat.cast_zero,
    Int.cast_zero]

/-- A coordinate is not outside an interval when it is between its ends. -/
theorem outside_eq_zero_iff {start size p : ℝ} :
    outside (interval start size) p = 0 ↔ p ∈ Set.uIcc start (start + size) := by
  have hnonneg : 0 ≤ outside (interval start size) p := by
    rw [outside_eq]
    exact le_max_of_le_left (le_max_right _ _)
  rw [← hnonneg.ge_iff_eq', outside_eq, interval_eq, max_le_iff, max_le_iff, sub_nonpos, sub_nonpos]
  exact ⟨fun h => ⟨h.1.1, h.2⟩, fun h => ⟨⟨h.1, le_rfl⟩, h.2⟩⟩

theorem distanceTo_nonneg (b : Box ℝ) (p : Point ℝ) : 0 ≤ b.distanceTo p := hypot_nonneg _ _

/-- **The distance to a box is zero in the box and nowhere else.** -/
theorem distanceTo_eq_zero_iff {b : Box ℝ} {p : Point ℝ} :
    b.distanceTo p = 0 ↔ p ∈ b.region := by
  rw [distanceTo, hypot_eq_zero_iff, outside_eq_zero_iff, outside_eq_zero_iff, mem_region_iff]

/-- The middle of an interval is between its ends. -/
theorem middle_mem_uIcc (start size : ℝ) :
    start + size / Scalar.ofNat 2 ∈ Set.uIcc start (start + size) := by
  rw [Scalar.ofNat, Nat.cast_ofNat, Int.cast_ofNat, Set.mem_uIcc]
  rcases le_total 0 size with h | h
  · exact .inl ⟨by linarith, by linarith⟩
  · exact .inr ⟨by linarith, by linarith⟩

/-- A box contains its centre. -/
theorem center_mem_region (b : Box ℝ) : b.center ∈ b.region :=
  ⟨middle_mem_uIcc b.x b.width, middle_mem_uIcc b.y b.height⟩

end Box

end Diagram
