import Diagram.Proofs.Borders

/-!
# Layouts at the origin

An arrangement is moved by the least coordinates of its boxes and bends before any edge is routed.
So no coordinate of a box or a bend is negative afterwards, and on each axis one of them is zero.
Nothing that a route adds is negative either: the way from the centre of a box to a point is cut in
the box or on its border, wherever that point is, and a loop goes around the lower right corner.

Nothing is asked of the arrangement, whose coordinates may be negative and whose bends may lie
anywhere, but that it leaves nothing out.
-/

namespace Diagram

section

variable {K : Type} [Field K] [LinearOrder K] [IsStrictOrderedRing K] [FloorRing K]

attribute [local instance] Scalar.exact

/-! ## Corners -/

/-- The least of some values is found, unless there is none. -/
theorem isLeast_minimum? (xs : List K) :
    (xs = [] ∧ minimum? xs = none) ∨ ∃ m, minimum? xs = some m ∧ IsLeast {x | x ∈ xs} m := by
  induction xs with
  | nil => exact .inl ⟨rfl, rfl⟩
  | cons x xs ih =>
    refine .inr ?_
    rw [minimum?]
    obtain ⟨rfl, hnone⟩ | ⟨m, hm, hmem, hle⟩ := ih
    · rw [hnone]
      refine ⟨x, if_pos le_rfl, List.mem_singleton_self x, ?_⟩
      intro y hy
      exact (List.mem_singleton.mp hy).ge
    · rw [hm]
      refine ⟨min m x, congrArg some (min_exact_eq m x), ?_, ?_⟩
      · rcases min_choice m x with h | h
        · rw [h]
          exact List.mem_cons_of_mem x hmem
        · rw [h]
          exact List.mem_cons_self
      · intro y hy
        rcases List.mem_cons.mp hy with rfl | hy
        · exact min_le_right m y
        · exact (min_le_left m x).trans (hle hy)

namespace Placement

variable (p : Placement K) (sizes : List (K × K))

/-- Where the boxes of an arrangement begin on an axis, and where its edges bend. -/
def starts (axis : Point K → K) (extent : K × K → K) : List K :=
  (p.centers.zip sizes).map (fun cs => axis cs.1 - extent cs.2 / Scalar.ofNat 2) ++
    p.bends.flatten.map axis

theorem corner?_eq : p.corner? sizes = (do
    let x ← minimum? (p.starts sizes Point.x Prod.fst)
    let y ← minimum? (p.starts sizes Point.y Prod.snd)
    return ⟨x, y⟩) :=
  rfl

/-- An arrangement that is moved by a vector. -/
def moved (c : Point K) : Placement K :=
  ⟨p.centers.map (·.sub c), p.bends.map (List.map (·.sub c))⟩

theorem starts_moved {axis : Point K → K} (haxis : ∀ q c, axis (q.sub c) = axis q - axis c)
    (extent : K × K → K) (c : Point K) :
    (p.moved c).starts sizes axis extent = (p.starts sizes axis extent).map (· - axis c) := by
  simp only [starts, moved, List.zip_map_left, List.map_map, List.map_append, ← List.map_flatten]
  congr 1
  · refine List.map_congr_left fun cs _ => ?_
    simp only [Function.comp_apply, Prod.map_fst, Prod.map_snd, id_eq, haxis]
    exact sub_right_comm _ _ _
  · refine List.map_congr_left fun q _ => ?_
    exact haxis q c

end Placement

/-- The least of some values becomes zero when it is taken off all of them. -/
theorem isLeast_map_sub {xs : List K} {m : K} (h : IsLeast {x | x ∈ xs} m) :
    IsLeast {x | x ∈ xs.map (· - m)} 0 := by
  refine ⟨List.mem_map.mpr ⟨m, h.1, sub_self m⟩, ?_⟩
  intro y hy
  obtain ⟨x, hx, rfl⟩ := List.mem_map.mp hy
  exact sub_nonneg.mpr (h.2 hx)

/-- **The least coordinates of an arrangement that has been moved to the origin are zero.** -/
theorem isLeast_normalize (p : Placement K) {sizes : List (K × K)}
    (hne : p.centers.zip sizes ≠ []) :
    IsLeast {x | x ∈ (p.normalize sizes).starts sizes Point.x Prod.fst} 0 ∧
      IsLeast {y | y ∈ (p.normalize sizes).starts sizes Point.y Prod.snd} 0 := by
  obtain ⟨hnil, -⟩ | ⟨x, hx, hleft⟩ := isLeast_minimum? (p.starts sizes Point.x Prod.fst)
  · simp [Placement.starts, hne] at hnil
  obtain ⟨hnil, -⟩ | ⟨y, hy, htop⟩ := isLeast_minimum? (p.starts sizes Point.y Prod.snd)
  · simp [Placement.starts, hne] at hnil
  have hcorner : p.corner? sizes = some ⟨x, y⟩ := by
    rw [Placement.corner?_eq, hx, hy]
    rfl
  have hmoved : p.normalize sizes = p.moved ⟨x, y⟩ := by
    rw [Placement.normalize, hcorner]
    rfl
  rw [hmoved, p.starts_moved sizes (fun _ _ => rfl), p.starts_moved sizes (fun _ _ => rfl)]
  exact ⟨isLeast_map_sub hleft, isLeast_map_sub htop⟩

/-! ## Routes -/

/-- A point neither of whose coordinates is negative. -/
def Point.IsNonneg (q : Point K) : Prop := 0 ≤ q.x ∧ 0 ≤ q.y

/-- A box no corner of which has a negative coordinate. -/
structure Box.IsNonneg (b : Box K) : Prop where
  x : 0 ≤ b.x
  y : 0 ≤ b.y
  width : 0 ≤ b.width
  height : 0 ≤ b.height

variable {a b : Box K}

theorem nonneg_center (h : b.IsNonneg) : b.center.IsNonneg := by
  rw [center_eq]
  exact ⟨add_nonneg h.x (div_nonneg h.width zero_le_two),
    add_nonneg h.y (div_nonneg h.height zero_le_two)⟩

/-- The way out of a box is cut where no coordinate is negative, wherever it leads. -/
theorem nonneg_clip (h : b.IsNonneg) (q : Point K) : (b.clip q).IsNonneg := by
  obtain ⟨hx, hy⟩ := clip_mem_Icc h.width h.height q
  exact ⟨h.x.trans hx.1, h.y.trans hy.1⟩

/-- **The points of a route between two boxes**, whatever its bends are. -/
theorem nonneg_routeBetween (ha : a.IsNonneg) (hb : b.IsNonneg) {bends : List (Point K)}
    (hbends : ∀ q ∈ bends, q.IsNonneg) : ∀ q ∈ (routeBetween a b bends).polyline, q.IsNonneg := by
  intro q hq
  rcases List.mem_append.mp hq with hq | hq
  · rcases List.mem_cons.mp hq with rfl | hq
    · exact nonneg_clip ha _
    · exact hbends q hq
  · rw [List.mem_singleton.mp hq]
    exact nonneg_clip hb _

/-- **The points of a loop.** -/
theorem nonneg_loop (h : b.IsNonneg) : ∀ q ∈ b.loop.polyline, q.IsNonneg := by
  have hcenter := nonneg_center h
  have hright : 0 ≤ b.x + b.width := add_nonneg h.x h.width
  have hbottom : 0 ≤ b.y + b.height := add_nonneg h.y h.height
  have hreach : (0 : K) ≤ Scalar.ofNat 20 := by simp [Scalar.ofNat]
  simp only [Section.polyline, Box.loop, List.cons_append, List.nil_append, List.forall_mem_cons]
  exact ⟨⟨hright, hcenter.2⟩, ⟨add_nonneg hright hreach, hcenter.2⟩,
    ⟨add_nonneg hright hreach, add_nonneg hbottom hreach⟩, ⟨hcenter.1, add_nonneg hbottom hreach⟩,
    ⟨hcenter.1, hbottom⟩, List.forall_mem_nil _⟩

/-! ## Layouts -/

/-- The four corners of a box. -/
def Box.corners (b : Box K) : List (Point K) :=
  [⟨b.x, b.y⟩, ⟨b.x + b.width, b.y⟩, ⟨b.x, b.y + b.height⟩, ⟨b.x + b.width, b.y + b.height⟩]

theorem nonneg_corners (h : b.IsNonneg) : ∀ q ∈ b.corners, q.IsNonneg := by
  have hright : 0 ≤ b.x + b.width := add_nonneg h.x h.width
  have hbottom : 0 ≤ b.y + b.height := add_nonneg h.y h.height
  simp only [Box.corners, List.forall_mem_cons]
  exact ⟨⟨h.x, h.y⟩, ⟨hright, h.y⟩, ⟨h.x, hbottom⟩, ⟨hright, hbottom⟩, List.forall_mem_nil _⟩

/-- The corners of the boxes of a layout. -/
def LayoutResult.corners (r : LayoutResult K) : List (Point K) :=
  r.nodes.flatMap fun n => n.box.corners

/-- The points of the edges of a layout: where they start, bend and end. -/
def LayoutResult.course (r : LayoutResult K) : List (Point K) :=
  r.edges.flatMap fun e => e.sections.flatMap Section.polyline

/-- A layout of a graph none of whose coordinates is negative.  If the graph has any nodes, the
least coordinate of the corners of all boxes and of the bends of the arrangement is zero on each
axis. -/
structure LayoutResult.IsAtOrigin (r : LayoutResult K) (g : LayoutGraph K)
    (bends : List (List (Point K))) : Prop where
  corners : ∀ q ∈ r.corners, 0 ≤ q.x ∧ 0 ≤ q.y
  course : ∀ q ∈ r.course, 0 ≤ q.x ∧ 0 ≤ q.y
  least : g.nodes ≠ [] → IsLeast (Point.x '' {q | q ∈ r.corners ++ bends.flatten}) 0 ∧
    IsLeast (Point.y '' {q | q ∈ r.corners ++ bends.flatten}) 0

section Realizing

variable {p : Placement K} {g : LayoutGraph K} {t : Topology K} {r : LayoutResult K}

/-- The nodes of a layout, each around its centre. -/
theorem nodes_of_realize (h : p.realize g t = .ok r) : r.nodes =
    (g.nodes.zip (p.normalize t.sizes).centers).map fun nq => ⟨nq.1.id, nq.1.boxAt nq.2⟩ := by
  have hplaced := (realize_eq_ok h).1.imp fun _ _ hplace => (place_eq_ok hplace).symm
  rw [← List.forall₂_map_left_iff (f := fun nq : SizedNode K × Point K =>
    (⟨nq.1.id, nq.1.boxAt nq.2⟩ : PlacedNode K)), List.forall₂_eq_eq_eq] at hplaced
  exact hplaced.symm

/-- The coordinates from which the corner is taken are those of boxes and bends. -/
theorem starts_of_realize (ht : t.IsOf g) (h : p.realize g t = .ok r) (axis : Point K → K)
    (extent : K × K → K) (haxis : ∀ (n : SizedNode K) (c : Point K),
      axis ⟨(n.boxAt c).x, (n.boxAt c).y⟩ =
        axis c - extent (n.width, n.height) / Scalar.ofNat 2) :
    (p.normalize t.sizes).starts t.sizes axis extent =
      r.nodes.map (fun n => axis ⟨n.box.x, n.box.y⟩) ++
        (p.normalize t.sizes).bends.flatten.map axis := by
  rw [nodes_of_realize h, Placement.starts, ht.sizes, List.zip_map_right, ← List.zip_swap]
  simp only [List.map_map]
  congr 1
  refine List.map_congr_left fun nq _ => ?_
  exact (haxis nq.1 nq.2).symm

/-- The least of the coordinates of boxes and bends. -/
theorem isLeast_of_realize (ht : t.IsOf g) (hp : p.Covers t) (h : p.realize g t = .ok r)
    (hne : r.nodes ≠ []) :
    IsLeast {x | x ∈ r.nodes.map (fun n => n.box.x) ++
      (p.normalize t.sizes).bends.flatten.map Point.x} 0 ∧
    IsLeast {y | y ∈ r.nodes.map (fun n => n.box.y) ++
      (p.normalize t.sizes).bends.flatten.map Point.y} 0 := by
  have hlength : r.nodes.length = t.size := by
    simpa [ht.size_eq] using congrArg List.length (isAligned_realize ht hp h).nodes
  have hpos : 0 < t.size := hlength ▸ List.length_pos_iff.mpr hne
  have hzip : p.centers.zip t.sizes ≠ [] := by
    refine List.length_pos_iff.mp ?_
    rw [List.length_zip, hp.centers]
    exact lt_min hpos hpos
  have hleft := starts_of_realize ht h Point.x Prod.fst fun _ _ => rfl
  have htop := starts_of_realize ht h Point.y Prod.snd fun _ _ => rfl
  rw [← hleft, ← htop]
  exact isLeast_normalize p hzip

/-- No coordinate of a box or a bend is negative. -/
theorem nonneg_of_realize (ht : t.IsOf g) (hp : p.Covers t)
    (hsizes : ∀ n ∈ g.nodes, 0 ≤ n.width ∧ 0 ≤ n.height) (h : p.realize g t = .ok r)
    (hne : r.nodes ≠ []) : (∀ n ∈ r.nodes, n.box.IsNonneg) ∧
      ∀ q ∈ (p.normalize t.sizes).bends.flatten, q.IsNonneg := by
  obtain ⟨hleft, htop⟩ := isLeast_of_realize ht hp h hne
  constructor
  · intro n hn
    have hx : 0 ≤ n.box.x := hleft.2 (List.mem_append_left _ (List.mem_map_of_mem hn))
    have hy : 0 ≤ n.box.y := htop.2 (List.mem_append_left _ (List.mem_map_of_mem hn))
    rw [nodes_of_realize h] at hn
    obtain ⟨nq, hnq, rfl⟩ := List.mem_map.mp hn
    obtain ⟨hwidth, hheight⟩ := hsizes nq.1 (List.of_mem_zip hnq).1
    exact ⟨hx, hy, hwidth, hheight⟩
  · intro q hq
    exact ⟨hleft.2 (List.mem_append_right _ (List.mem_map_of_mem hq)),
      htop.2 (List.mem_append_right _ (List.mem_map_of_mem hq))⟩

/-- The least coordinate of corners and bends is that of a box's first corner or of a bend. -/
theorem isLeast_image_corners {f : Point K → K} {bends : List (Point K)}
    (hzero : 0 ∈ r.nodes.map (fun n => f ⟨n.box.x, n.box.y⟩) ++ bends.map f)
    (hle : ∀ q ∈ r.corners ++ bends, 0 ≤ f q) :
    IsLeast (f '' {q | q ∈ r.corners ++ bends}) 0 := by
  refine ⟨?_, ?_⟩
  · rcases List.mem_append.mp hzero with hzero | hzero
    · obtain ⟨n, hn, hcorner⟩ := List.mem_map.mp hzero
      have hfirst : (⟨n.box.x, n.box.y⟩ : Point K) ∈ r.corners :=
        List.mem_flatMap.mpr ⟨n, hn, List.mem_cons_self⟩
      exact ⟨_, List.mem_append_left _ hfirst, hcorner⟩
    · obtain ⟨q, hq, hbend⟩ := List.mem_map.mp hzero
      exact ⟨q, List.mem_append_right _ hq, hbend⟩
  · rintro _ ⟨q, hq, rfl⟩
    exact hle q hq

/-- No corner of a box has a negative coordinate. -/
theorem nonneg_corners_of_realize (ht : t.IsOf g) (hp : p.Covers t)
    (hsizes : ∀ n ∈ g.nodes, 0 ≤ n.width ∧ 0 ≤ n.height) (h : p.realize g t = .ok r) :
    ∀ q ∈ r.corners, q.IsNonneg := by
  intro q hq
  obtain ⟨n, hn, hq⟩ := List.mem_flatMap.mp hq
  obtain ⟨hboxes, -⟩ := nonneg_of_realize ht hp hsizes h (List.ne_nil_of_mem hn)
  exact nonneg_corners (hboxes n hn) q hq

/-- No point of an edge has a negative coordinate. -/
theorem nonneg_course_of_realize (ht : t.IsOf g) (hp : p.Covers t)
    (hsizes : ∀ n ∈ g.nodes, 0 ≤ n.width ∧ 0 ≤ n.height) (h : p.realize g t = .ok r) :
    ∀ q ∈ r.course, q.IsNonneg := by
  have haligned := isAligned_realize ht hp h
  intro q hq
  obtain ⟨routed, hrouted, hq⟩ := List.mem_flatMap.mp hq
  obtain ⟨k, hk, rfl⟩ := List.getElem_of_mem hrouted
  have hedge := List.getElem?_eq_getElem (haligned.length ▸ hk)
  obtain ⟨i, j, a, b, own, -, -, ha, hb, hown, hroute⟩ := haligned.edges k _ hedge
  have ha := List.mem_of_getElem? ha
  obtain ⟨hboxes, hbends⟩ := nonneg_of_realize ht hp hsizes h (List.ne_nil_of_mem ha)
  rw [List.getElem?_eq_getElem hk, Option.some_inj] at hroute
  rw [hroute, List.flatMap_singleton] at hq
  split at hq
  · exact nonneg_loop (hboxes a ha) q hq
  · refine nonneg_routeBetween (hboxes a ha) (hboxes b (List.mem_of_getElem? hb)) ?_ q hq
    intro q hq
    exact hbends q (List.mem_flatten.mpr ⟨own, List.mem_of_getElem? hown, hq⟩)

/-- **An arrangement that leaves nothing out becomes a layout at the origin.** -/
theorem isAtOrigin_realize (ht : t.IsOf g) (hp : p.Covers t)
    (hsizes : ∀ n ∈ g.nodes, 0 ≤ n.width ∧ 0 ≤ n.height) (h : p.realize g t = .ok r) :
    r.IsAtOrigin g (p.normalize t.sizes).bends := by
  have hcorners := nonneg_corners_of_realize ht hp hsizes h
  refine ⟨hcorners, nonneg_course_of_realize ht hp hsizes h, fun hnodes => ?_⟩
  have hne : r.nodes ≠ [] := by
    intro hnil
    refine hnodes (List.map_eq_nil_iff.mp ((isAligned_realize ht hp h).nodes.symm.trans ?_))
    rw [hnil, List.map_nil]
  obtain ⟨hleft, htop⟩ := isLeast_of_realize ht hp h hne
  obtain ⟨-, hbends⟩ := nonneg_of_realize ht hp hsizes h hne
  have hnonneg : ∀ q ∈ r.corners ++ (p.normalize t.sizes).bends.flatten, q.IsNonneg :=
    List.forall_mem_append.mpr ⟨hcorners, hbends⟩
  constructor
  · exact isLeast_image_corners hleft.1 fun q hq => (hnonneg q hq).1
  · exact isLeast_image_corners htop.1 fun q hq => (hnonneg q hq).2

end Realizing

/-- **Layouts are at the origin**, in exact arithmetic.  When no node has a negative size and every
edge ends at nodes, every arrangement that leaves nothing out becomes a layout, whether any of the
algorithms yields it or not; no coordinate of a box or of a point of an edge is negative, and if
there are any nodes the least of the boxes and bends is zero on each axis.  So the layout by the
algorithm that the options name is one. -/
theorem layOut_isAtOrigin (hypot : K → K → K) (sin cos : K → K) (pi : K) {g : LayoutGraph K}
    (hg : g.IsClosed) (hsizes : ∀ n ∈ g.nodes, 0 ≤ n.width ∧ 0 ≤ n.height) :
    ∃ t, g.topology = .ok t ∧
      (∀ p : Placement K, p.Covers t →
        ∃ r, p.realize g t = .ok r ∧ r.IsAtOrigin g (p.normalize t.sizes).bends) ∧
      ∀ o, ∃ r, @layOut K (Metric.exact hypot sin cos pi) g o = .ok r ∧ r.IsAtOrigin g
        ((@arrange K (Metric.exact hypot sin cos pi) t o).normalize t.sizes).bends := by
  obtain ⟨t, htopology, hof⟩ := exists_topology hg
  have hall : ∀ p : Placement K, p.Covers t →
      ∃ r, p.realize g t = .ok r ∧ r.IsAtOrigin g (p.normalize t.sizes).bends := by
    intro p hp
    obtain ⟨-, r, hr, -, -⟩ := exists_realize hof hp
    exact ⟨r, hr, isAtOrigin_realize hof hp hsizes hr⟩
  refine ⟨t, htopology, hall, fun o => ?_⟩
  obtain ⟨r, hr, horigin⟩ := hall _ (@covers_arrange K (Metric.exact hypot sin cos pi) t o)
  have hlayout := @layOut_eq_realize K (Metric.exact hypot sin cos pi) g t htopology o
  exact ⟨r, hlayout.trans hr, horigin⟩

end

/-- Two nodes away from the origin, an edge that bends far to the left of both of them, and a
loop. -/
theorem layOut_isAtOrigin_aside :
    let g : LayoutGraph ℚ := ⟨[⟨"a", 3, 1, none⟩, ⟨"b", 1, 4, none⟩],
      [⟨"1", "a", "b", none⟩, ⟨"2", "b", "b", none⟩]⟩
    let t : Topology ℚ := ⟨[(3, 1), (1, 4)], [(0, 1), (1, 1)]⟩
    let p : Placement ℚ := ⟨[⟨-7, 3⟩, ⟨5, -2⟩], [[⟨-20, 9⟩, ⟨1, 30⟩], []]⟩
    g.IsClosed ∧ (∀ n ∈ g.nodes, 0 ≤ n.width ∧ 0 ≤ n.height) ∧ p.Covers t ∧
      (∃ r, @Placement.realize ℚ (Scalar.exact ℚ) p g t = .ok r ∧
        r.IsAtOrigin g [[⟨0, 13⟩, ⟨21, 34⟩], []]) ∧
      ∃ r, @layOut ℚ (Metric.exact max id id 3) g ⟨.layered, .up, 2, 1⟩ = .ok r ∧
        ∀ q ∈ r.corners ++ r.course, 0 ≤ q.x ∧ 0 ≤ q.y := by
  intro g t p
  have hg : g.IsClosed := by
    unfold LayoutGraph.IsClosed
    decide
  have hsizes : ∀ n ∈ g.nodes, 0 ≤ n.width ∧ 0 ≤ n.height := by decide
  have hp : p.Covers t := ⟨rfl, rfl⟩
  have htopology : g.topology = .ok t := rfl
  have hmoved : (@Placement.normalize ℚ (Scalar.exact ℚ) p t.sizes).bends =
      [[⟨0, 13⟩, ⟨21, 34⟩], []] := by decide +kernel
  obtain ⟨t', ht', hall, hlayouts⟩ := layOut_isAtOrigin max id id 3 hg hsizes
  obtain rfl := Except.ok.inj (htopology.symm.trans ht')
  obtain ⟨r, hr, horigin⟩ := hall p hp
  obtain ⟨r', hr', horigin'⟩ := hlayouts ⟨.layered, .up, 2, 1⟩
  rw [hmoved] at horigin
  exact ⟨hg, hsizes, hp, ⟨r, hr, horigin⟩, r', hr',
    List.forall_mem_append.mpr ⟨horigin'.corners, horigin'.course⟩⟩

end Diagram
