import Mathlib.Analysis.Real.Sqrt
import Diagram.Proofs.Borders

/-!
# Cells of a grid

The cells of a grid are all of one size, that of the widest node by that of the highest, and lie the
node spacing apart, so that no two of them overlap.  Row and column of a node are quotient and
remainder of its position, which together determine it.  With the root of the number of nodes as the
number of columns, rounded up, there are no more rows than columns.

Hence no two nodes of a grid overlap: each is inside a cell of its own.  This holds of the answer as
well as of the arrangement, since the grid is moved to the origin as a whole.
-/

namespace Diagram

/-! ## Columns -/

/-- The root of a number, rounded up, is the least number whose square is no smaller. -/
theorem ceilSqrt_le_iff {n c : Nat} : ceilSqrt n ≤ c ↔ n ≤ c * c := by
  have hself : n ≤ n * n := Nat.le_mul_self n
  obtain ⟨r, hr⟩ : ∃ r, (List.range (n + 1)).find? (fun c => n ≤ c * c) = some r := by
    refine Option.isSome_iff_exists.mp (List.find?_isSome.mpr ⟨n, ?_, ?_⟩)
    · exact List.mem_range.mpr n.lt_succ_self
    · exact decide_eq_true hself
  have hroot : ceilSqrt n = r := by rw [ceilSqrt, hr, Option.getD_some]
  obtain ⟨hle, -, hleast⟩ := List.find?_range_eq_some.mp hr
  rw [hroot]
  constructor
  · intro hc
    exact (of_decide_eq_true hle).trans (Nat.mul_le_mul hc hc)
  · intro hc
    by_contra hlt
    have hnot := hleast c (not_le.mp hlt)
    simp [hc] at hnot

/-- **The number of columns**: the root of the number of nodes, rounded up, and at least one. -/
theorem gridColumns_eq (n : Nat) : gridColumns n = max 1 ⌈√(n : ℝ)⌉₊ := by
  rw [gridColumns]
  congr 1
  refine eq_of_forall_ge_iff fun c => ?_
  rw [ceilSqrt_le_iff, Nat.ceil_le, Real.sqrt_le_left c.cast_nonneg, sq]
  exact_mod_cast Iff.rfl

theorem gridColumns_pos (n : Nat) : 0 < gridColumns n :=
  Nat.lt_of_lt_of_le one_pos (le_max_left _ _)

/-- A square with as many rows as columns has room for all nodes. -/
theorem le_gridColumns_mul (n : Nat) : n ≤ gridColumns n * gridColumns n :=
  ceilSqrt_le_iff.mp (le_max_right _ _)

/-- There are no more rows than columns. -/
theorem div_gridColumns_lt {n i : Nat} (hi : i < n) : i / gridColumns n < gridColumns n :=
  Nat.div_lt_of_lt_mul (hi.trans_le (le_gridColumns_mul n))

/-- Row and column of a node determine it. -/
theorem eq_of_div_of_mod {c i j : Nat} (hrow : i / c = j / c) (hcolumn : i % c = j % c) :
    i = j := by
  rw [← Nat.div_add_mod i c, ← Nat.div_add_mod j c, hrow, hcolumn]

section

variable {K : Type} [Field K] [LinearOrder K] [IsStrictOrderedRing K] [FloorRing K]

attribute [local instance] Scalar.exact

/-! ## Cells -/

/-- What is centred inside a box of at least its size is inside it. -/
theorem interior_subset_of_center {a b : Box K} (hcenter : a.center = b.center)
    (hwidth : a.width ≤ b.width) (hheight : a.height ≤ b.height) : a.interior ⊆ b.interior := by
  intro p hp
  rw [mem_interior_iff, hcenter] at hp
  rw [mem_interior_iff]
  constructor
  · exact hp.1.trans_le (div_le_div_of_nonneg_right hwidth zero_le_two)
  · exact hp.2.trans_le (div_le_div_of_nonneg_right hheight zero_le_two)

variable (g : LayoutGraph K) (o : Options K) (origin : Point K)

/-- The cell in a row and a column of a grid, the cells of which are as wide as the widest node and
as high as the highest. -/
def gridCell (row column : Nat) : Box K :=
  let width := largest (g.nodes.map SizedNode.width)
  let height := largest (g.nodes.map SizedNode.height)
  ⟨origin.x + column * (width + o.nodeSpacing), origin.y + row * (height + o.nodeSpacing),
    width, height⟩

variable {g} in
/-- No node is larger than a cell. -/
theorem size_le_gridCell {n : SizedNode K} (hn : n ∈ g.nodes) (row column : Nat) :
    n.width ≤ (gridCell g o origin row column).width ∧
      n.height ≤ (gridCell g o origin row column).height :=
  ⟨(le_largest _).2 _ (List.mem_map_of_mem hn), (le_largest _).2 _ (List.mem_map_of_mem hn)⟩

/-- What is one step or more ahead begins behind the end of what is there, with the space of a step
between them. -/
theorem cast_mul_step_le {extent gap : K} (hextent : 0 ≤ extent) (hgap : 0 ≤ gap) {m n : Nat}
    (hmn : m < n) (start : K) :
    start + m * (extent + gap) + extent ≤ start + n * (extent + gap) := by
  have hstep : (m + 1 : K) * (extent + gap) ≤ n * (extent + gap) := by
    refine mul_le_mul_of_nonneg_right ?_ (add_nonneg hextent hgap)
    exact_mod_cast hmn
  linarith

variable {o}

/-- **Different cells do not overlap.** -/
theorem disjoint_gridCell (hnode : 0 ≤ o.nodeSpacing) {row column row' column' : Nat}
    (h : (row, column) ≠ (row', column')) : Disjoint (gridCell g o origin row column).interior
      (gridCell g o origin row' column').interior := by
  have hwidth := (le_largest (g.nodes.map SizedNode.width)).1
  have hheight := (le_largest (g.nodes.map SizedNode.height)).1
  refine disjoint_interior ?_
  rcases lt_trichotomy column column' with hlt | heq | hlt
  · exact .inl (.inl (cast_mul_step_le hwidth hnode hlt _))
  · have hne : row ≠ row' := fun hrow => h (Prod.ext hrow heq)
    rcases lt_or_gt_of_ne hne with hlt | hlt
    · exact .inr (.inl (cast_mul_step_le hheight hnode hlt _))
    · exact .inr (.inr (cast_mul_step_le hheight hnode hlt _))
  · exact .inl (.inr (cast_mul_step_le hwidth hnode hlt _))

/-! ## Layouts -/

/-- A layout whose nodes stand in the middle of the cells of a grid, row by row: the cell of a node
is in the row and column that are quotient and remainder of its position by the number of columns,
no two nodes have one cell, and there are no more rows than columns. -/
structure LayoutResult.FillsGrid (r : LayoutResult K) (g : LayoutGraph K)
    (cell : Nat → Nat → Box K) (columns : Nat) : Prop where
  length : r.nodes.length = g.nodes.length
  nodes : ∀ i n, g.nodes[i]? = some n → ∃ a, r.nodes[i]? = some a ∧ a.id = n.id ∧
    a.box.width = n.width ∧ a.box.height = n.height ∧
      a.box.center = (cell (i / columns) (i % columns)).center
  within : ∀ i < g.nodes.length, i / columns < columns ∧ i % columns < columns
  distinct : ∀ i j, i ≠ j → (i / columns, i % columns) ≠ (j / columns, j % columns)

/-- The nodes of a grid do not overlap, wherever it begins. -/
theorem LayoutResult.FillsGrid.pairwise_disjoint {r : LayoutResult K} {g : LayoutGraph K}
    {origin : Point K} {columns : Nat} (h : r.FillsGrid g (gridCell g o origin) columns)
    (hnode : 0 ≤ o.nodeSpacing) :
    r.nodes.Pairwise fun a b => Disjoint a.box.interior b.box.interior := by
  have hinside : ∀ i a, r.nodes[i]? = some a →
      a.box.interior ⊆ (gridCell g o origin (i / columns) (i % columns)).interior := by
    intro i a ha
    have hi : i < g.nodes.length := h.length ▸ (List.getElem?_eq_some_iff.mp ha).1
    have hn := List.getElem?_eq_getElem hi
    obtain ⟨b, hb, -, hwidth, hheight, hcenter⟩ := h.nodes i _ hn
    obtain rfl := Option.some.inj (ha.symm.trans hb)
    have hsize := size_le_gridCell o origin (List.mem_of_getElem? hn) (i / columns) (i % columns)
    exact interior_subset_of_center hcenter (hwidth.trans_le hsize.1) (hheight.trans_le hsize.2)
  refine List.pairwise_iff_getElem.mpr fun i j hi hj hij => ?_
  have hcells := disjoint_gridCell g origin hnode (h.distinct i j hij.ne)
  exact hcells.mono (hinside i _ (List.getElem?_eq_getElem hi))
    (hinside j _ (List.getElem?_eq_getElem hj))

/-- A cell that is moved is a cell of a grid that begins elsewhere. -/
theorem center_gridCell_sub (c : Point K) (row column : Nat) :
    (gridCell g o origin row column).center.sub c =
      (gridCell g o (origin.sub c) row column).center := by
  simp only [center_eq, Point.sub, gridCell, Point.mk.injEq]
  constructor <;> ring

variable {g}

/-- The centres of the grid arrangement are those of cells. -/
theorem centers_grid {t : Topology K} (ht : t.IsOf g) :
    (grid t o).centers = (List.range t.size).map fun i =>
      (gridCell g o Point.origin (i / gridColumns t.size) (i % gridColumns t.size)).center := by
  have hwidth : t.sizes.map Prod.fst = g.nodes.map SizedNode.width := by
    rw [ht.sizes, List.map_map]
    rfl
  have hheight : t.sizes.map Prod.snd = g.nodes.map SizedNode.height := by
    rw [ht.sizes, List.map_map]
    rfl
  simp only [grid, hwidth, hheight]
  refine List.map_congr_left fun i _ => ?_
  simp [center_eq, gridCell, largest, Point.origin]

/-- **Grid layouts**, in exact arithmetic.  A graph whose edges end at its nodes is laid out, the
`i`th node in the middle of the cell in row `i / c` and column `i % c` of a grid of `c` columns,
where `c` is the root of the number of nodes, rounded up, and at least one.  No two nodes have one
cell, there are no more than `c` rows, and no two boxes overlap. -/
theorem layOut_grid (hypot : K → K → K) (sin cos : K → K) (pi : K) (hg : g.IsClosed)
    (halgorithm : o.algorithm = .box) (hnode : 0 ≤ o.nodeSpacing) :
    ∃ origin r, @layOut K (Metric.exact hypot sin cos pi) g o = .ok r ∧
      r.FillsGrid g (gridCell g o origin) (max 1 ⌈√(g.nodes.length : ℝ)⌉₊) ∧
      r.nodes.Pairwise fun a b => Disjoint a.box.interior b.box.interior := by
  obtain ⟨t, htopology, hof⟩ := exists_topology hg
  obtain ⟨c, r, hr, hanswers, hnodes⟩ := exists_realize hof (covers_grid t o)
  have hlayout := @layOut_eq_realize K (Metric.exact hypot sin cos pi) g t htopology o
  simp only [arrange, halgorithm] at hlayout
  rw [centers_grid hof, hof.size_eq] at hnodes
  rw [← gridColumns_eq]
  have hfills :
      r.FillsGrid g (gridCell g o (Point.origin.sub c)) (gridColumns g.nodes.length) := by
    refine ⟨?_, fun i n hn => ?_, fun i hi => ?_, fun i j hij hcell => ?_⟩
    · simpa using congrArg List.length hanswers.nodes
    · refine ⟨_, hnodes ▸ (getElem?_zip_map_range _ _ _ i).trans (congrArg _ hn), rfl, rfl, rfl, ?_⟩
      rw [center_boxAt, center_gridCell_sub]
    · exact ⟨div_gridColumns_lt hi, Nat.mod_lt i (gridColumns_pos _)⟩
    · obtain ⟨hrow, hcolumn⟩ := Prod.mk.inj hcell
      exact hij (eq_of_div_of_mod hrow hcolumn)
  exact ⟨_, r, hlayout.trans hr, hfills, hfills.pairwise_disjoint hnode⟩

end

/-- Five nodes of different sizes, the fourth and fifth of which begin a second row of three. -/
theorem layOut_grid_five :
    let g : LayoutGraph ℚ := ⟨[⟨"a", 3, 1, none⟩, ⟨"b", 1, 4, none⟩, ⟨"c", 2, 2, none⟩,
      ⟨"d", 0, 1, none⟩, ⟨"e", 5, 0, none⟩], [⟨"1", "a", "e", none⟩]⟩
    let o : Options ℚ := ⟨.box, .down, 2, 1⟩
    g.IsClosed ∧ ∃ origin r, @layOut ℚ (Metric.exact max id id 3) g o = .ok r ∧
      r.FillsGrid g (gridCell g o origin) 3 ∧
      r.nodes.Pairwise fun a b => Disjoint a.box.interior b.box.interior := by
  intro g o
  have hg : g.IsClosed := by
    unfold LayoutGraph.IsClosed
    decide
  obtain ⟨origin, r, hr, hfills, hdisjoint⟩ :=
    layOut_grid max id id 3 hg (o := o) rfl (by decide)
  have hcolumns : max 1 ⌈√(g.nodes.length : ℝ)⌉₊ = 3 := (gridColumns_eq 5).symm.trans (by decide)
  rw [hcolumns] at hfills
  exact ⟨hg, origin, r, hr, hfills, hdisjoint⟩

end Diagram
