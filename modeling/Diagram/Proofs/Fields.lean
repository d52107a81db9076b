import Mathlib.Algebra.Order.Field.Basic
import Mathlib.Algebra.Order.Round
import Mathlib.Data.Set.Disjoint
import Mathlib.Tactic.Linarith
import Diagram.Proofs.Arrangements

/-!
# Coordinates in an ordered field

Over an ordered field, such as that of the rational numbers, no coordinate is rounded and none is
infinite.  An arrangement is then moved to the origin as a whole, so that the boxes of its nodes are
to each other as its centres are.
-/

namespace Diagram

/-- The nearest whole number, a half going away from zero. -/
def roundAway {K : Type} [Field K] [LinearOrder K] [IsStrictOrderedRing K] [FloorRing K]
    (x : K) : Int :=
  if 0 ≤ x then round x else -round (-x)

/-- The elements of an ordered field as coordinates, every one of them finite. -/
@[reducible] def Scalar.exact (K : Type) [Field K] [LinearOrder K] [IsStrictOrderedRing K]
    [FloorRing K] : Scalar K where
  ltDecidable := inferInstance
  leDecidable := inferInstance
  isFinite _ := true
  nearest := roundAway

/-- The elements of an ordered field as coordinates, with whatever functions for lengths and
angles. -/
@[reducible] def Metric.exact {K : Type} [Field K] [LinearOrder K] [IsStrictOrderedRing K]
    [FloorRing K] (hypot : K → K → K) (sin cos : K → K) (pi : K) : Metric K :=
  { Scalar.exact K with hypot := hypot, sin := sin, cos := cos, pi := pi }

section

variable {K : Type} [Field K] [LinearOrder K] [IsStrictOrderedRing K] [FloorRing K]

attribute [local instance] Scalar.exact

/-! ## Arithmetic -/

@[simp] theorem ofNat_two_eq : (Scalar.ofNat 2 : K) = 2 := Int.cast_ofNat 2

@[simp] theorem zero_eq : (Scalar.zero : K) = 0 := by simp [Scalar.zero, Scalar.ofNat]

@[simp] theorem max_exact_eq (a b : K) : Scalar.max a b = max a b := by
  rw [Scalar.max, max_def_lt]
  simp only [le_refl, not_true_eq_false, or_false]

@[simp] theorem min_exact_eq (a b : K) : Scalar.min a b = min a b := by
  rw [Scalar.min, min_comm, min_def_lt]
  simp only [le_refl, not_true_eq_false, or_false]

@[simp] theorem abs_exact_eq (a : K) : Scalar.abs a = |a| := by
  rw [Scalar.abs, zero_eq]
  split
  · next h => exact (abs_of_neg h).symm
  · next h => exact (abs_of_nonneg (not_lt.mp h)).symm

@[simp] theorem one_eq : (Scalar.ofNat 1 : K) = 1 := by simp [Scalar.ofNat]

theorem same_exact_iff {a b : K} : Scalar.same a b = true ↔ a = b := by
  rw [Scalar.same, Bool.and_eq_true, decide_eq_true_eq, decide_eq_true_eq]
  exact antisymm_iff

/-! ## Boxes -/

/-- The points inside a box, those of its border apart. -/
def Box.interior (b : Box K) : Set (Point K) :=
  { p | (b.x < p.x ∧ p.x < b.x + b.width) ∧ b.y < p.y ∧ p.y < b.y + b.height }

/-- The box `b` lies behind the box `a` in a direction, with at least `gap` between them. -/
def Box.Beyond (d : Direction) (gap : K) (a b : Box K) : Prop :=
  match d with
  | .down => a.y + a.height + gap ≤ b.y
  | .up => b.y + b.height + gap ≤ a.y
  | .right => a.x + a.width + gap ≤ b.x
  | .left => b.x + b.width + gap ≤ a.x

/-- Boxes have no point inside both when one ends, on one of the axes, before the other begins. -/
theorem disjoint_interior {a b : Box K} (h : (a.x + a.width ≤ b.x ∨ b.x + b.width ≤ a.x) ∨
    a.y + a.height ≤ b.y ∨ b.y + b.height ≤ a.y) : Disjoint a.interior b.interior := by
  refine Set.disjoint_left.mpr ?_
  rintro p ⟨⟨hax, hax'⟩, hay, hay'⟩ ⟨⟨hbx, hbx'⟩, hby, hby'⟩
  rcases h with (h | h) | (h | h) <;> linarith

theorem Box.Beyond.disjoint {d : Direction} {gap : K} {a b : Box K} (hgap : 0 ≤ gap)
    (h : a.Beyond d gap b) : Disjoint a.interior b.interior := by
  refine disjoint_interior ?_
  cases d with
  | down => exact .inr (.inl (le_trans (le_add_of_nonneg_right hgap) h))
  | up => exact .inr (.inr (le_trans (le_add_of_nonneg_right hgap) h))
  | right => exact .inl (.inl (le_trans (le_add_of_nonneg_right hgap) h))
  | left => exact .inl (.inr (le_trans (le_add_of_nonneg_right hgap) h))

/-! ## Answers -/

/-- What is made of the members of a list and of their positions. -/
theorem getElem?_zip_map_range {β γ δ : Type} (xs : List β) (f : Nat → γ) (h : β × γ → δ)
    (i : Nat) : ((xs.zip ((List.range xs.length).map f)).map h)[i]? =
      xs[i]?.map fun x => h (x, f i) := by
  cases hi : xs[i]? with
  | none =>
    have hlength := List.getElem?_eq_none_iff.mp hi
    exact List.getElem?_eq_none (by simpa using hlength)
  | some x =>
    have hlt := (List.getElem?_eq_some_iff.mp hi).1
    have hplace : ((List.range xs.length).map f)[i]? = some (f i) := by
      rw [List.getElem?_map, List.getElem?_range hlt, Option.map_some]
    have hzip : (xs.zip ((List.range xs.length).map f))[i]? = some (x, f i) :=
      List.getElem?_zip_eq_some.mpr ⟨hi, hplace⟩
    rw [List.getElem?_map, hzip, Option.map_some, Option.map_some]

/-- An arrangement is moved as a whole. -/
theorem exists_normalize (p : Placement K) (sizes : List (K × K)) : ∃ c, p.normalize sizes =
    ⟨p.centers.map (·.sub c), p.bends.map (List.map (·.sub c))⟩ := by
  have hstay : (fun q : Point K => q.sub ⟨0, 0⟩) = id := by
    funext q
    simp [Point.sub]
  rw [Placement.normalize]
  split
  · next c hc => exact ⟨c, rfl⟩
  · exact ⟨⟨0, 0⟩, by rw [hstay, List.map_id, List.map_id_fun, List.map_id]⟩

/-- **An arrangement that leaves nothing out becomes an answer**, with a box around every
centre. -/
theorem exists_realize {p : Placement K} {g : LayoutGraph K} {t : Topology K} (ht : t.IsOf g)
    (hp : p.Covers t) : ∃ c r, p.realize g t = .ok r ∧ r.Answers g ∧
      r.nodes = (g.nodes.zip p.centers).map fun nq => ⟨nq.1.id, nq.1.boxAt (nq.2.sub c)⟩ := by
  obtain ⟨c, hmoved⟩ := exists_normalize p t.sizes
  have hc := congrArg Placement.centers hmoved
  have hplace : (g.nodes.zip (p.normalize t.sizes).centers).mapM
      (fun nq : SizedNode K × Point K => nq.1.place nq.2) =
        .ok ((g.nodes.zip p.centers).map fun nq => ⟨nq.1.id, nq.1.boxAt (nq.2.sub c)⟩) := by
    refine (List.mapM_pure (m := Except LayoutError)).trans ?_
    rw [hc, List.zip_map_right, List.map_map]
    rfl
  have hnodes : ∀ r, p.realize g t = .ok r →
      r.nodes = (g.nodes.zip p.centers).map fun nq => ⟨nq.1.id, nq.1.boxAt (nq.2.sub c)⟩ := by
    intro r hr
    simp only [Placement.realize] at hr
    rw [hplace] at hr
    cases hr
    rfl
  obtain ⟨r, hr, hanswers⟩ | ⟨n, -, herror⟩ := realize_cases ht hp
  · exact ⟨c, r, hr, hanswers, hnodes r hr⟩
  · simp only [Placement.realize] at herror
    rw [hplace] at herror
    cases herror

end

end Diagram
