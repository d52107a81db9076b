import Mathlib
import Diagram.Proofs.Alignment
import Diagram.Proofs.Bends

/-!
# Routes from border to border

The way from the centre of a box to a point is cut where it leaves the box.  It does leave the box
when the point is not inside, so that the cut is on the border then; a point inside would be the cut
itself.

In the layered arrangement no route aims at a point inside its box.  It aims at a bend or at a node
of another layer, and what stands in another layer is at least half the thickness of the node's own
layer away from the middle of it.  This does not depend on the thickness of the layer that is aimed
at, nor on how the vertices of the layers are ordered.
-/

namespace Diagram

/-- What meets a stretch from within another one shares a point inside both with it. -/
theorem exists_between_of_mem {K : Type} [Field K] [LinearOrder K] [IsStrictOrderedRing K]
    {a a' b b' x : K} (ha : a < a') (hx : x ∈ Set.Icc a a')
    (hx' : b < x ∧ x < b') : ∃ y, (a < y ∧ y < a') ∧ b < y ∧ y < b' := by
  have hlt : max a b < min a' b' :=
    max_lt (lt_min ha (hx.1.trans_lt hx'.2)) (lt_min (hx'.1.trans_le hx.2) (hx'.1.trans hx'.2))
  obtain ⟨y, hy, hy'⟩ := exists_between hlt
  exact ⟨y, ⟨(le_max_left a b).trans_lt hy, hy'.trans_le (min_le_left a' b')⟩,
    (le_max_right a b).trans_lt hy, hy'.trans_le (min_le_right a' b')⟩

section

variable {K : Type} [Field K] [LinearOrder K] [IsStrictOrderedRing K] [FloorRing K]

attribute [local instance] Scalar.exact

/-! ## Borders -/

/-- The points of the border of a box. -/
def Box.border (b : Box K) : Set (Point K) :=
  { p | (p.x ∈ Set.Icc b.x (b.x + b.width) ∧ p.y ∈ Set.Icc b.y (b.y + b.height)) ∧
    p ∉ b.interior }

theorem center_eq (b : Box K) : b.center = ⟨b.x + b.width / 2, b.y + b.height / 2⟩ := by
  rw [Box.center, ofNat_two_eq]

/-- The points inside a box are those that are nearer to its centre, on both axes, than half of its
size. -/
theorem mem_interior_iff {b : Box K} {p : Point K} : p ∈ b.interior ↔
    |(p.sub b.center).x| < b.width / 2 ∧ |(p.sub b.center).y| < b.height / 2 := by
  rw [center_eq, abs_lt, abs_lt]
  refine and_congr (and_congr ?_ ?_) (and_congr ?_ ?_) <;>
    constructor <;> intro h <;> dsimp only [Point.sub] at h ⊢ <;> linarith

/-- The points of a box, its border included, are no farther from its centre, on either axis, than
half of its size. -/
theorem mem_Icc_iff {b : Box K} {p : Point K} :
    (p.x ∈ Set.Icc b.x (b.x + b.width) ∧ p.y ∈ Set.Icc b.y (b.y + b.height)) ↔
      |(p.sub b.center).x| ≤ b.width / 2 ∧ |(p.sub b.center).y| ≤ b.height / 2 := by
  rw [center_eq, abs_le, abs_le]
  refine and_congr (and_congr ?_ ?_) (and_congr ?_ ?_) <;>
    constructor <;> intro h <;> dsimp only [Point.sub] at h ⊢ <;> linarith

/-- No point of the border of a box is inside another box, unless some point is inside both. -/
theorem notMem_interior_of_mem_border {a b : Box K} (hwidth : 0 < a.width) (hheight : 0 < a.height)
    (hdisjoint : Disjoint a.interior b.interior) {p : Point K} (hp : p ∈ a.border) :
    p ∉ b.interior := by
  rintro ⟨hx, hy⟩
  obtain ⟨x, hax, hbx⟩ := exists_between_of_mem (lt_add_of_pos_right a.x hwidth) hp.1.1 hx
  obtain ⟨y, hay, hby⟩ := exists_between_of_mem (lt_add_of_pos_right a.y hheight) hp.1.2 hy
  have ha : (⟨x, y⟩ : Point K) ∈ a.interior := ⟨hax, hay⟩
  exact Set.disjoint_left.mp hdisjoint ha ⟨hbx, hby⟩

/-! ## Ways out of a box -/

/-- A share that is no larger than that of the border does not lead beyond it. -/
theorem abs_mul_le_half {half d share : K} (hhalf : 0 ≤ half) (hle : share ≤ borderShare half d) :
    |d| * share ≤ half := by
  rw [borderShare] at hle
  split at hle
  · next hd =>
    rw [same_exact_iff, zero_eq] at hd
    rwa [hd, abs_zero, zero_mul]
  · next hd =>
    rw [same_exact_iff, zero_eq] at hd
    rw [abs_exact_eq, le_div_iff₀ (abs_pos.mpr hd)] at hle
    rwa [mul_comm]

/-- The share of a border that is not beyond the end leads to it. -/
theorem abs_mul_borderShare {half d : K} (hlt : borderShare half d < 1) :
    |d| * borderShare half d = half := by
  rw [borderShare] at hlt ⊢
  split at hlt
  · exact absurd one_eq hlt.ne
  · next hd =>
    rw [if_neg hd, abs_exact_eq]
    rw [same_exact_iff, zero_eq] at hd
    exact mul_div_cancel₀ half (abs_pos.mpr hd).ne'

theorem borderShare_nonneg {half : K} (hhalf : 0 ≤ half) (d : K) : 0 ≤ borderShare half d := by
  rw [borderShare]
  split
  · rw [one_eq]
    exact zero_le_one
  · rw [abs_exact_eq]
    exact div_nonneg hhalf (abs_nonneg d)

/-- How much of the way from the centre of a box to a point lies in the box. -/
def Box.share (b : Box K) (p : Point K) : K :=
  min (min (borderShare (b.width / Scalar.ofNat 2) (p.sub b.center).x)
    (borderShare (b.height / Scalar.ofNat 2) (p.sub b.center).y)) 1

theorem share_eq (b : Box K) (p : Point K) : b.share p =
    min (min (borderShare (b.width / 2) (p.sub b.center).x)
      (borderShare (b.height / 2) (p.sub b.center).y)) 1 := by
  rw [Box.share, ofNat_two_eq]

theorem share_nonneg {b : Box K} (hwidth : 0 ≤ b.width) (hheight : 0 ≤ b.height) (p : Point K) :
    0 ≤ b.share p := by
  have hx := borderShare_nonneg (div_nonneg hwidth zero_le_two) (p.sub b.center).x
  have hy := borderShare_nonneg (div_nonneg hheight zero_le_two) (p.sub b.center).y
  rw [share_eq]
  exact le_min (le_min hx hy) zero_le_one

theorem sub_clip (b : Box K) (p : Point K) : (b.clip p).sub b.center =
    ⟨(p.sub b.center).x * b.share p, (p.sub b.center).y * b.share p⟩ := by
  rw [Box.clip, share_eq]
  simp only [min_exact_eq, ofNat_two_eq, one_eq]
  split
  · next h =>
    simp only [Bool.and_eq_true, same_exact_iff, zero_eq] at h
    rw [h.1, h.2, zero_mul, Point.sub, sub_self, sub_self]
  · simp only [Point.sub, add_sub_cancel_left]

/-- The way to a point is cut on the border of a box or inside it. -/
theorem clip_mem_Icc {b : Box K} (hwidth : 0 ≤ b.width) (hheight : 0 ≤ b.height) (p : Point K) :
    (b.clip p).x ∈ Set.Icc b.x (b.x + b.width) ∧ (b.clip p).y ∈ Set.Icc b.y (b.y + b.height) := by
  have hle := (share_eq b p).trans_le (min_le_left _ 1)
  rw [mem_Icc_iff, sub_clip]
  dsimp only
  rw [abs_mul, abs_mul, abs_of_nonneg (share_nonneg hwidth hheight p)]
  constructor
  · exact abs_mul_le_half (div_nonneg hwidth zero_le_two) (hle.trans (min_le_left _ _))
  · exact abs_mul_le_half (div_nonneg hheight zero_le_two) (hle.trans (min_le_right _ _))

/-- **The way to a point that is not inside a box is cut on the border of the box.** -/
theorem clip_mem_border {b : Box K} {p : Point K} (hwidth : 0 ≤ b.width) (hheight : 0 ≤ b.height)
    (hp : p ∉ b.interior) : b.clip p ∈ b.border := by
  refine ⟨clip_mem_Icc hwidth hheight p, ?_⟩
  rw [mem_interior_iff, sub_clip]
  dsimp only
  rw [abs_mul, abs_mul, abs_of_nonneg (share_nonneg hwidth hheight p)]
  rintro ⟨hx, hy⟩
  rcases le_or_gt 1 (min (borderShare (b.width / 2) (p.sub b.center).x)
    (borderShare (b.height / 2) (p.sub b.center).y)) with hfar | hnear
  · -- nothing is cut off
    rw [share_eq, min_eq_right hfar, mul_one] at hx hy
    exact hp (mem_interior_iff.mpr ⟨hx, hy⟩)
  · rw [share_eq, min_eq_left hnear.le] at hx hy
    rcases min_choice (borderShare (b.width / 2) (p.sub b.center).x)
      (borderShare (b.height / 2) (p.sub b.center).y) with h | h
    · rw [h] at hnear hx
      exact hx.ne (abs_mul_borderShare hnear)
    · rw [h] at hnear hy
      exact hy.ne (abs_mul_borderShare hnear)

/-- A loop starts and ends on the border of its box. -/
theorem loop_mem_border {b : Box K} (hwidth : 0 ≤ b.width) (hheight : 0 ≤ b.height) :
    b.loop.startPoint ∈ b.border ∧ b.loop.endPoint ∈ b.border := by
  simp only [Box.loop, center_eq]
  constructor
  · refine ⟨⟨⟨?_, ?_⟩, ?_, ?_⟩, fun h => lt_irrefl _ h.1.2⟩ <;> dsimp only <;> linarith
  · refine ⟨⟨⟨?_, ?_⟩, ?_, ?_⟩, fun h => lt_irrefl _ h.2.2⟩ <;> dsimp only <;> linarith

/-! ## Vertices of different layers -/

variable (t : Topology K) (o : Options K)

/-- The thickness of a layer. -/
def thicknessOf (l : Nat) : K := (thicknesses (vertexList t o).toArray (rowsOf t o)).getD l 0

/-- The middles of two layers are at least half the thickness of each apart. -/
theorem half_thicknessOf_le (hnode : 0 ≤ o.nodeSpacing) {l l' : Nat} (hlt : l < l')
    (hlast : l' < (thicknesses (vertexList t o).toArray (rowsOf t o)).length) :
    thicknessOf t o l / 2 + thicknessOf t o l' / 2 ≤ |centreLine t o l' - centreLine t o l| := by
  have hstarts := layerStarts_le o hnode (thicknesses_nonneg (vertexList t o).toArray (rowsOf t o))
    Scalar.zero hlt hlast
  simp only [centreLine, thicknessOf, zero_eq, ofNat_two_eq] at hstarts ⊢
  split
  · refine le_trans ?_ (neg_le_abs _)
    linarith
  · refine le_trans ?_ (le_abs_self _)
    linarith

variable {t}

/-- **What stands in another layer is half the extent of a vertex away from its middle, or more**,
in the direction of the layers. -/
theorem half_along_le (hnode : 0 ≤ o.nodeSpacing) {u v l l' : Nat}
    (hu : (layerOf t o)[u]? = some l) (hv : (layerOf t o)[v]? = some l') (hne : l ≠ l') :
    alongAt (vertexList t o).toArray u / 2 ≤
      |(centreOf t o v).along o.direction - (centreOf t o u).along o.direction| := by
  obtain ⟨hlast, hle⟩ := alongAt_le_thicknesses (vertexList t o).toArray
    ((mem_orderLayers K _ _).mpr hu : u ∈ (rowsOf t o).getD l [])
  obtain ⟨hlast', -⟩ := alongAt_le_thicknesses (vertexList t o).toArray
    ((mem_orderLayers K _ _).mpr hv : v ∈ (rowsOf t o).getD l' [])
  have hthick : ∀ m, 0 ≤ thicknessOf t o m := fun m => by
    rw [thicknessOf, List.getD_eq_getElem?_getD]
    cases hm : (thicknesses (vertexList t o).toArray (rowsOf t o))[m]? with
    | none => exact le_rfl
    | some x => exact thicknesses_nonneg _ _ x (List.mem_of_getElem? hm)
  have hapart : thicknessOf t o l / 2 + thicknessOf t o l' / 2 ≤
      |centreLine t o l' - centreLine t o l| := by
    rcases lt_or_gt_of_ne hne with hlt | hlt
    · exact half_thicknessOf_le t o hnode hlt hlast'
    · rw [abs_sub_comm, add_comm]
      exact half_thicknessOf_le t o hnode hlt hlast
  rw [along_centreOf t o hu, along_centreOf t o hv]
  have hle : alongAt (vertexList t o).toArray u ≤ thicknessOf t o l := hle
  linarith [hthick l']

/-! ## Aims -/

@[simp] theorem center_boxAt (n : SizedNode K) (c : Point K) : (n.boxAt c).center = c := by
  simp only [center_eq, SizedNode.boxAt, ofNat_two_eq, sub_add_cancel]

/-- A point that is half the extent of a box away from its middle, or more, in one direction, is not
inside it. -/
theorem notMem_interior_of_along {n : SizedNode K} {c q : Point K} (d : Direction)
    (h : (if d.isHorizontal then n.width else n.height) / 2 ≤ |q.along d - c.along d|) :
    q ∉ (n.boxAt c).interior := by
  rw [mem_interior_iff, center_boxAt]
  rintro ⟨hx, hy⟩
  simp only [Point.along] at h
  split at h
  · exact hx.not_ge h
  · exact hy.not_ge h

/-- **No vertex of another layer stands inside the box of a node**, wherever the whole is moved. -/
theorem sub_notMem_interior (ht : t.IsProper) (hnode : 0 ≤ o.nodeSpacing) {n : SizedNode K}
    {u v l : Nat} (hu : t.sizes[u]? = some (n.width, n.height)) (hv : (layerOf t o)[v]? = some l)
    (hne : l ≠ (nodeLayers t).getD u 0) (c : Point K) :
    (centreOf t o v).sub c ∉ (n.boxAt ((centreOf t o u).sub c)).interior := by
  have hlayer := getElem?_layerOf o ht.links (List.getElem?_eq_some_iff.mp hu).1
  have halong := half_along_le o hnode hlayer hv hne.symm
  rw [(extents_eq o ht hu).1] at halong
  refine notMem_interior_of_along o.direction (halong.trans_eq ?_)
  simp only [Point.along, Point.sub]
  split <;> rw [sub_sub_sub_cancel_right]

/-- The vertices at which an edge bends stand in neither of the layers of its ends. -/
theorem exists_layer_of_mem {p q w : Nat} {course : List Nat}
    (h : course.map ((layerOf t o)[·]?) = (layersBetween p q).map some) (hw : w ∈ course) :
    ∃ l, (layerOf t o)[w]? = some l ∧ l ≠ p ∧ l ≠ q := by
  have hmem := List.mem_map_of_mem (f := ((layerOf t o)[·]?)) hw
  rw [h] at hmem
  obtain ⟨l, hl, hlayer⟩ := List.mem_map.mp hmem
  refine ⟨l, hlayer.symm, ?_⟩
  rw [layersBetween] at hl
  split at hl
  · obtain ⟨hfirst, hlast⟩ := List.mem_range'_1.mp hl
    omega
  · obtain ⟨hfirst, hlast⟩ := List.mem_range'_1.mp (List.mem_reverse.mp hl)
    omega

/-- A route aims at the centre of the vertex that it meets next. -/
theorem getD_map_sub (next : Option Nat) (v : Nat) (c : Point K) :
    ((next.map (centreOf t o)).map (·.sub c)).getD ((centreOf t o v).sub c) =
      (centreOf t o (next.getD v)).sub c := by
  cases next <;> rfl

/-- **A route between two nodes starts and ends on the borders of their boxes**, wherever the whole
is moved. -/
theorem routeBetween_mem_border (ht : t.IsProper) (hnode : 0 ≤ o.nodeSpacing) {m n : SizedNode K}
    {i j : Nat} (hi : t.sizes[i]? = some (m.width, m.height))
    (hj : t.sizes[j]? = some (n.width, n.height))
    (hij : (nodeLayers t).getD i 0 ≠ (nodeLayers t).getD j 0) {course : List Nat}
    (hcourse : course.map ((layerOf t o)[·]?) =
      (layersBetween ((nodeLayers t).getD i 0) ((nodeLayers t).getD j 0)).map some) (c : Point K) :
    let a := m.boxAt ((centreOf t o i).sub c)
    let b := n.boxAt ((centreOf t o j).sub c)
    let s := routeBetween a b ((course.map (centreOf t o)).map (·.sub c))
    s.startPoint ∈ a.border ∧ s.endPoint ∈ b.border := by
  have hsizes := ht.sizes _ (List.mem_of_getElem? hi)
  have hsizes' := ht.sizes _ (List.mem_of_getElem? hj)
  have hlayer := getElem?_layerOf o ht.links (List.getElem?_eq_some_iff.mp hi).1
  have hlayer' := getElem?_layerOf o ht.links (List.getElem?_eq_some_iff.mp hj).1
  simp only [routeBetween, center_boxAt, List.head?_map, List.getLast?_map, getD_map_sub]
  constructor
  · -- the route aims at the first node on its course, and at its end when it has none in between
    have haim : ∃ l, (layerOf t o)[course.head?.getD j]? = some l ∧
        l ≠ (nodeLayers t).getD i 0 := by
      cases hhead : course.head? with
      | none => exact ⟨_, hlayer', hij.symm⟩
      | some w =>
        obtain ⟨l, hl, hne, -⟩ := exists_layer_of_mem o hcourse (List.mem_of_head? hhead)
        exact ⟨l, hl, hne⟩
    obtain ⟨l, hl, hne⟩ := haim
    exact clip_mem_border hsizes.1 hsizes.2 (sub_notMem_interior o ht hnode hi hl hne c)
  · -- the same from the other end
    have haim : ∃ l, (layerOf t o)[course.getLast?.getD i]? = some l ∧
        l ≠ (nodeLayers t).getD j 0 := by
      cases hlast : course.getLast? with
      | none => exact ⟨_, hlayer, hij⟩
      | some w =>
        obtain ⟨l, hl, -, hne⟩ := exists_layer_of_mem o hcourse (List.mem_of_getLast? hlast)
        exact ⟨l, hl, hne⟩
    obtain ⟨l, hl, hne⟩ := haim
    exact clip_mem_border hsizes'.1 hsizes'.2 (sub_notMem_interior o ht hnode hj hl hne c)

/-! ## Layouts -/

/-- The nodes of a graph, each around the centre of its vertex, where the whole has been moved by
the vector `c`. -/
def LayoutResult.IsMovedBy (r : LayoutResult K) (g : LayoutGraph K) (t : Topology K)
    (o : Options K) (c : Point K) : Prop :=
  ∀ (i : Nat) (a : PlacedNode K), r.nodes[i]? = some a → ∃ n ∈ g.nodes,
    t.sizes[i]? = some (n.width, n.height) ∧ a.box = n.boxAt ((centreOf t o i).sub c)

variable {o} {g : LayoutGraph K} {r : LayoutResult K} {c : Point K}

theorem isMovedBy_of_place (hof : t.IsOf g)
    (h : List.Forall₂ (fun nq m => nq.1.place nq.2 = .ok m)
      (g.nodes.zip ((layered t o).centers.map (·.sub c))) r.nodes) : r.IsMovedBy g t o c := by
  intro i a ha
  obtain ⟨hi, rfl⟩ := List.getElem?_eq_some_iff.mp ha
  have hi' := h.length_eq.symm ▸ hi
  have hplace := (List.forall₂_iff_get.mp h).2 i hi' hi
  have hn : i < g.nodes.length := (List.length_zip ▸ hi').trans_le (min_le_left _ _)
  refine ⟨g.nodes[i], List.getElem_mem hn, hof.getElem?_sizes (List.getElem?_eq_getElem hn), ?_⟩
  simp only [List.get_eq_getElem, List.getElem_zip, centers_layered, List.getElem_map,
    List.getElem_range] at hplace
  rw [place_eq_ok hplace]

namespace LayoutResult.IsMovedBy

variable (h : r.IsMovedBy g t o c) (ht : t.IsProper) (hnode : 0 ≤ o.nodeSpacing)

include h ht hnode

/-- **No point of the border of one box is inside another.** -/
theorem notMem_interior (hsizes : ∀ n ∈ g.nodes, 0 < n.width ∧ 0 < n.height)
    (hedge : 0 ≤ o.edgeSpacing) {a b : PlacedNode K} {q : Point K} (ha : a ∈ r.nodes)
    (hb : b ∈ r.nodes) (hq : q ∈ a.box.border) : q ∉ b.box.interior := by
  obtain ⟨i, hi⟩ := List.getElem?_of_mem ha
  obtain ⟨j, hj⟩ := List.getElem?_of_mem hb
  obtain ⟨m, hm, hsize, habox⟩ := h i a hi
  obtain ⟨n, -, hsize', hbbox⟩ := h j b hj
  by_cases hij : i = j
  · subst hij
    obtain rfl := Option.some.inj (hi.symm.trans hj)
    exact hq.2
  · refine notMem_interior_of_mem_border ?_ ?_ ?_ hq
    · exact habox ▸ (hsizes m hm).1
    · exact habox ▸ (hsizes m hm).2
    · rw [habox, hbbox]
      exact disjoint_boxAt o c ht hnode hedge hsize hsize' hij

/-- **The section of an edge runs from border to border.** -/
theorem mem_border {k i j : Nat} {a b : PlacedNode K} {own : List (Point K)}
    (hlink : t.links[k]? = some (i, j)) (ha : r.nodes[i]? = some a) (hb : r.nodes[j]? = some b)
    (hown : ((layered t o).bends.map (List.map (·.sub c)))[k]? = some own) :
    let s := if i = j then a.box.loop else routeBetween a.box b.box own
    s.startPoint ∈ a.box.border ∧ s.endPoint ∈ b.box.border := by
  obtain ⟨m, -, hsize, habox⟩ := h i a ha
  obtain ⟨n, -, hsize', hbbox⟩ := h j b hb
  dsimp only
  split
  · next hij =>
    subst hij
    obtain rfl := Option.some.inj (ha.symm.trans hb)
    have hnonneg := ht.sizes _ (List.mem_of_getElem? hsize)
    rw [habox]
    exact loop_mem_border hnonneg.1 hnonneg.2
  · next hij =>
    obtain ⟨course, hcourse, hlayers⟩ := exists_course o ht.links hlink
    have hne : (nodeLayers t).getD i 0 ≠ (nodeLayers t).getD j 0 := by
      have hlt := nodeLayers_lt ht.links hlink hij
      split at hlt
      · exact hlt.ne'
      · exact hlt.ne
    rw [bends_layered, List.getElem?_map, List.getElem?_map, hcourse] at hown
    rw [habox, hbbox, ← Option.some.inj hown]
    exact routeBetween_mem_border o ht hnode hsize hsize' hne hlayers c

end LayoutResult.IsMovedBy

/-- The one section of the `k`th edge starts on the border of the box of its source and ends on the
border of the box of its target, neither point being inside any box. -/
def LayoutResult.IsBordered (r : LayoutResult K) (g : LayoutGraph K) (k : Nat) (e : GraphEdge) :
    Prop :=
  ∃ i j a b s, Denotes g.nodes e.source i ∧ Denotes g.nodes e.target j ∧
    r.nodes[i]? = some a ∧ r.nodes[j]? = some b ∧ r.edges[k]? = some ⟨e.id, [s]⟩ ∧
      s.startPoint ∈ a.box.border ∧ s.endPoint ∈ b.box.border ∧
        ∀ n ∈ r.nodes, s.startPoint ∉ n.box.interior ∧ s.endPoint ∉ n.box.interior

/-- **Layered edges run from border to border**, in exact arithmetic.  A graph whose edges end at
its nodes and whose nodes have an extent is laid out, and the section of every edge, a loop or not,
starts on the border of the box of its source and ends on the border of the box of its target.
Neither point is inside any box. -/
theorem layOut_isBordered (hypot : K → K → K) (sin cos : K → K) (pi : K) {g : LayoutGraph K}
    (hg : g.IsClosed) (hsizes : ∀ n ∈ g.nodes, 0 < n.width ∧ 0 < n.height) {o : Options K}
    (halgorithm : o.algorithm = .layered) (hnode : 0 ≤ o.nodeSpacing) (hedge : 0 ≤ o.edgeSpacing) :
    ∃ r, @layOut K (Metric.exact hypot sin cos pi) g o = .ok r ∧
      ∀ k e, g.edges[k]? = some e → r.IsBordered g k e := by
  obtain ⟨t, htopology, hof⟩ := exists_topology hg
  have ht := hof.isProper fun n hn => ⟨(hsizes n hn).1.le, (hsizes n hn).2.le⟩
  obtain ⟨c, hmoved⟩ := exists_normalize (layered t o) t.sizes
  obtain ⟨-, r, hr, -, -⟩ := exists_realize hof (covers_layered t o)
  have hlayout := layOut_eq_realize_layered hypot sin cos pi htopology halgorithm
  have haligned := isAligned_realize hof (covers_layered t o) hr
  have hplaced := (realize_eq_ok hr).1
  rw [hmoved] at haligned hplaced
  dsimp only at haligned hplaced
  -- all boxes and bends are moved by one vector, so it is enough to look at them before the move
  have hmovedBy : r.IsMovedBy g t o c := isMovedBy_of_place hof hplaced
  refine ⟨r, hlayout.trans hr, fun k e hk => ?_⟩
  obtain ⟨i, j, a, b, own, hi, hj, ha, hb, hown, hroute⟩ := haligned.edges k e hk
  obtain ⟨i', j', hlink, hi', hj'⟩ := hof.exists_link hk
  obtain rfl := hi.unique (indexOf?_eq_some_iff.mp hi')
  obtain rfl := hj.unique (indexOf?_eq_some_iff.mp hj')
  obtain ⟨hstart, hend⟩ := hmovedBy.mem_border ht hnode hlink ha hb hown
  refine ⟨i, j, a, b, _, hi, hj, ha, hb, hroute, hstart, hend, fun n hn => ⟨?_, ?_⟩⟩
  · exact hmovedBy.notMem_interior ht hnode hsizes hedge (List.mem_of_getElem? ha) hn hstart
  · exact hmovedBy.notMem_interior ht hnode hsizes hedge (List.mem_of_getElem? hb) hn hend

end

/-- Three nodes in a ring, one of them with a loop.  The edge that closes the ring was turned
around, and aims at its bend beside the second node. -/
theorem layOut_isBordered_ring :
    let ca : GraphEdge := ⟨"3", "c", "a", none⟩
    let bb : GraphEdge := ⟨"4", "b", "b", none⟩
    let g : LayoutGraph ℚ := ⟨[⟨"a", 3, 1, none⟩, ⟨"b", 1, 1, none⟩, ⟨"c", 2, 2, none⟩],
      [⟨"1", "a", "b", none⟩, ⟨"2", "b", "c", none⟩, ca, bb]⟩
    let o : Options ℚ := ⟨.layered, .left, 0, 1⟩
    g.IsClosed ∧ (∀ n ∈ g.nodes, 0 < n.width ∧ 0 < n.height) ∧
      ∃ r, @layOut ℚ (Metric.exact max id id 3) g o = .ok r ∧
        r.IsBordered g 2 ca ∧ r.IsBordered g 3 bb := by
  intro ca bb g o
  have hg : g.IsClosed := by
    unfold LayoutGraph.IsClosed
    decide
  have hsizes : ∀ n ∈ g.nodes, 0 < n.width ∧ 0 < n.height := by decide
  obtain ⟨r, hr, hedges⟩ :=
    layOut_isBordered max id id 3 hg hsizes (o := o) rfl (by decide) (by decide)
  exact ⟨hg, hsizes, r, hr, hedges 2 ca rfl, hedges 3 bb rfl⟩

end Diagram
