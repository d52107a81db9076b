import Mathlib.Algebra.Order.Field.Basic
import Diagram.Proofs.Layers
import Diagram.Proofs.Orders
import Diagram.Proofs.Rows

/-!
# The layered arrangement

In exact arithmetic, with no negative size and no negative spacing, no two nodes of the layered
arrangement overlap, in whatever direction the layers follow each other, and every edge that was not
turned around leads on, with the node spacing between its ends.  Nodes of one layer stand side by
side, whatever order the sweeps have left; nodes of different layers stand in front of each other;
and an edge leads to a higher layer.

What holds for the centres holds for the answer, since the arrangement is moved to the origin as a
whole.  Bends take part in the order of the layers, but they have no extent and no box, so nothing
is said of them here.
-/

namespace Diagram

/-! ## Vertices -/

section

variable {α : Type} (t : Topology α)

/-- The layer of every node. -/
def nodeLayers : List Nat := (assignLayers t.size t.links).1

/-- The edges, those that lead back turned around. -/
def onwardArcs : List Arc := reoriented t.links (assignLayers t.size t.links).2

variable [Scalar α] (o : Options α)

/-- The vertices of all layers. -/
def vertexList : List (Vertex α) :=
  vertices o.direction.isHorizontal t.sizes (nodeLayers t) (onwardArcs t)

/-- The vertices of every layer, in order. -/
def rowsOf : List (List Nat) :=
  (orderLayers α ((vertexList t o).map Vertex.layer)
    (segmentsOf (onwardArcs t) (virtualChains (nodeLayers t) t.size (onwardArcs t)))).layers

/-- The middle of a vertex in the direction of the layers, before any mirroring. -/
def middleOf (v : Nat) : α :=
  let verts := (vertexList t o).toArray
  let thick := thicknesses verts (rowsOf t o)
  let layer := (verts[v]?.map Vertex.layer).getD 0
  (layerStarts o Scalar.zero thick).1.getD layer Scalar.zero +
    thick.getD layer Scalar.zero / Scalar.ofNat 2

/-- The middle of a vertex within its layer. -/
def acrossOf (v : Nat) : α :=
  ((acrossPositions o (vertexList t o).toArray (rowsOf t o)).lookup v).getD Scalar.zero

/-- The extent of all layers. -/
def depthOf : α :=
  Scalar.max ((layerStarts o Scalar.zero (thicknesses (vertexList t o).toArray (rowsOf t o))).2 -
    o.nodeSpacing) Scalar.zero

/-- The centre of a vertex. -/
def centreOf (v : Nat) : Point α :=
  let along := if o.direction = .up ∨ o.direction = .left then depthOf t o - middleOf t o v
    else middleOf t o v
  if o.direction.isHorizontal then ⟨along, acrossOf t o v⟩ else ⟨acrossOf t o v, along⟩

theorem centers_layered : (layered t o).centers = (List.range t.size).map (centreOf t o) := by
  simp only [layered]
  refine List.map_congr_left fun v _ => ?_
  simp only [centreOf, middleOf, acrossOf, depthOf, rowsOf, vertexList, nodeLayers, onwardArcs]

end

section

variable {K : Type} [Field K] [LinearOrder K] [IsStrictOrderedRing K] [FloorRing K]

attribute [local instance] Scalar.exact

variable (t : Topology K) (o : Options K)

/-! ## Layers -/

/-- Links that join nodes, and no negative size. -/
structure Topology.IsProper : Prop where
  links : ∀ arc ∈ t.links, arc.1 < t.size ∧ arc.2 < t.size
  sizes : ∀ s ∈ t.sizes, 0 ≤ s.1 ∧ 0 ≤ s.2

variable {t}

/-- The vertex of a node. -/
theorem getElem?_vertexList (ht : t.IsProper) {v : Nat} {s : K × K} (hv : t.sizes[v]? = some s) :
    (vertexList t o)[v]? = some (if o.direction.isHorizontal
      then ⟨(nodeLayers t).getD v 0, true, s.1, s.2⟩
      else ⟨(nodeLayers t).getD v 0, true, s.2, s.1⟩) := by
  have hlt : v < t.size := (List.getElem?_eq_some_iff.mp hv).1
  have hlength : (nodeLayers t).length = t.size := (assignLayers_lt ht.links).1
  have hlayer : (nodeLayers t)[v]? = some ((nodeLayers t).getD v 0) := by
    rw [List.getD_eq_getElem _ _ (hlength ▸ hlt), List.getElem?_eq_getElem (hlength ▸ hlt)]
  have hzip : (t.sizes.zip (nodeLayers t))[v]? = some (s, (nodeLayers t).getD v 0) :=
    List.getElem?_zip_eq_some.mpr ⟨hv, hlayer⟩
  have hnode : v < (t.sizes.zip (nodeLayers t)).length := (List.getElem?_eq_some_iff.mp hzip).1
  rw [vertexList, vertices, List.getElem?_append_left (by simpa using hnode), List.getElem?_map,
    hzip, Option.map_some]

/-- No vertex has a negative extent. -/
theorem nonneg_vertexList (ht : t.IsProper) :
    ∀ x ∈ vertexList t o, 0 ≤ x.along ∧ 0 ≤ x.across := by
  intro x hx
  rw [vertexList, vertices] at hx
  rcases List.mem_append.mp hx with hx | hx
  · obtain ⟨⟨s, l⟩, hs, rfl⟩ := List.mem_map.mp hx
    have hsize := ht.sizes s (List.of_mem_zip hs).1
    dsimp only
    split
    · exact hsize
    · exact hsize.symm
  · obtain ⟨l, -, rfl⟩ := List.mem_map.mp hx
    exact ⟨zero_eq.ge, zero_eq.ge⟩

/-- What a vertex is not known to have is nothing, so that no extent is negative. -/
theorem extents_nonneg (ht : t.IsProper) (v : Nat) :
    0 ≤ alongAt (vertexList t o).toArray v ∧ 0 ≤ acrossAt (vertexList t o).toArray v := by
  simp only [alongAt, acrossAt, List.getElem?_toArray]
  cases hx : (vertexList t o)[v]? with
  | none => exact ⟨zero_eq.ge, zero_eq.ge⟩
  | some x => exact nonneg_vertexList o ht x (List.mem_of_getElem? hx)

/-- The extents of a node, by the direction of the layers. -/
theorem extents_eq (ht : t.IsProper) {v : Nat} {s : K × K} (hv : t.sizes[v]? = some s) :
    alongAt (vertexList t o).toArray v = (if o.direction.isHorizontal then s.1 else s.2) ∧
      acrossAt (vertexList t o).toArray v = if o.direction.isHorizontal then s.2 else s.1 := by
  simp only [alongAt, acrossAt, List.getElem?_toArray, getElem?_vertexList o ht hv]
  split <;> exact ⟨rfl, rfl⟩

/-- A node stands in the row of its layer. -/
theorem mem_rowsOf (ht : t.IsProper) {v : Nat} {s : K × K} (hv : t.sizes[v]? = some s) :
    v ∈ (rowsOf t o).getD ((nodeLayers t).getD v 0) [] := by
  rw [rowsOf, mem_orderLayers, List.getElem?_map, getElem?_vertexList o ht hv, Option.map_some]
  split <;> rfl

/-- A link that was not turned around leads to a higher layer. -/
theorem getD_nodeLayers_lt (ht : t.IsProper) {k i j : Nat} (hk : t.links[k]? = some (i, j))
    (hne : i ≠ j) (honward : k ∉ (assignLayers t.size t.links).2) :
    (nodeLayers t).getD i 0 < (nodeLayers t).getD j 0 :=
  (assignLayers_lt ht.links).2 i j
    (mem_reoriented.mpr ⟨k, i, j, hk, (if_neg honward).symm⟩) hne

/-! ## Nodes of different layers -/

theorem middleOf_eq (ht : t.IsProper) {v : Nat} {s : K × K} (hv : t.sizes[v]? = some s) :
    middleOf t o v =
      (layerStarts o Scalar.zero (thicknesses (vertexList t o).toArray (rowsOf t o))).1.getD
        ((nodeLayers t).getD v 0) 0 +
      (thicknesses (vertexList t o).toArray (rowsOf t o)).getD ((nodeLayers t).getD v 0) 0 / 2 := by
  have hlayer : ((vertexList t o)[v]?.map Vertex.layer).getD 0 = (nodeLayers t).getD v 0 := by
    rw [getElem?_vertexList o ht hv]
    split <;> rfl
  simp only [middleOf, List.getElem?_toArray, hlayer, zero_eq, ofNat_two_eq]

/-- What stands in the middle of one layer ends before what stands in the middle of the next one
begins, neither being thicker than its layer. -/
theorem middle_le {start stop thick thick' a b gap : K} (h : start + (thick + gap) ≤ stop)
    (ha : a ≤ thick) (hb : b ≤ thick') :
    start + thick / 2 + a / 2 + gap ≤ stop + thick' / 2 - b / 2 := by
  linarith

/-- **A node of a higher layer begins behind the end of one of a lower layer**, with the node
spacing between them. -/
theorem middleOf_le (ht : t.IsProper) (hnode : 0 ≤ o.nodeSpacing) {u v : Nat} {s s' : K × K}
    (hu : t.sizes[u]? = some s) (hv : t.sizes[v]? = some s')
    (hlt : (nodeLayers t).getD u 0 < (nodeLayers t).getD v 0) :
    middleOf t o u + alongAt (vertexList t o).toArray u / 2 + o.nodeSpacing ≤
      middleOf t o v - alongAt (vertexList t o).toArray v / 2 := by
  have hthick := thicknesses_nonneg (vertexList t o).toArray (rowsOf t o)
  obtain ⟨-, hle⟩ := alongAt_le_thicknesses (vertexList t o).toArray (mem_rowsOf o ht hu)
  obtain ⟨hlast, hle'⟩ := alongAt_le_thicknesses (vertexList t o).toArray (mem_rowsOf o ht hv)
  have hstarts := layerStarts_le o hnode hthick Scalar.zero hlt hlast
  rw [middleOf_eq o ht hu, middleOf_eq o ht hv]
  exact middle_le hstarts hle hle'

/-! ## Nodes of the same layer -/

/-- **Nodes of one layer stand side by side.** -/
theorem beside_acrossOf (ht : t.IsProper) (hnode : 0 ≤ o.nodeSpacing) (hedge : 0 ≤ o.edgeSpacing)
    {u v : Nat} {s s' : K × K} (hu : t.sizes[u]? = some s) (hv : t.sizes[v]? = some s')
    (hlayer : (nodeLayers t).getD u 0 = (nodeLayers t).getD v 0) (hne : u ≠ v) :
    Beside (vertexList t o).toArray (u, acrossOf t o u) (v, acrossOf t o v) ∨
      Beside (vertexList t o).toArray (v, acrossOf t o v) (u, acrossOf t o u) := by
  have hmem := mem_rowsOf o ht hu
  have hmem' := mem_rowsOf o ht hv
  rw [hlayer] at hmem
  have hrow : (rowsOf t o).getD ((nodeLayers t).getD v 0) [] ∈ rowsOf t o := by
    by_cases hlt : (nodeLayers t).getD v 0 < (rowsOf t o).length
    · rw [List.getD_eq_getElem _ _ hlt]
      exact List.getElem_mem hlt
    · rw [List.getD_eq_default _ _ (not_lt.mp hlt)] at hmem
      cases hmem
  obtain ⟨x, y, hx, hy, hbeside⟩ := beside_acrossPositions o (vertexList t o).toArray hnode hedge
    (nodup_orderLayers K _ _) hrow (fun w _ => (extents_nonneg o ht w).2) hmem hmem' hne
  have hacross : acrossOf t o u = x := by rw [acrossOf, rowsOf, hx, Option.getD_some]
  have hacross' : acrossOf t o v = y := by rw [acrossOf, rowsOf, hy, Option.getD_some]
  rwa [hacross, hacross']

/-! ## Boxes -/

/-- The centre of a node, by direction. -/
theorem centreOf_eq (v : Nat) : centreOf t o v = match o.direction with
    | .down => ⟨acrossOf t o v, middleOf t o v⟩
    | .up => ⟨acrossOf t o v, depthOf t o - middleOf t o v⟩
    | .right => ⟨middleOf t o v, acrossOf t o v⟩
    | .left => ⟨depthOf t o - middleOf t o v, acrossOf t o v⟩ := by
  cases hd : o.direction <;> simp [centreOf, hd, Direction.isHorizontal]

variable {m n : SizedNode K} {u v : Nat} (c : Point K)

/-- **A node of a higher layer lies behind one of a lower layer**, wherever the whole is moved. -/
theorem beyond_boxAt (ht : t.IsProper) (hnode : 0 ≤ o.nodeSpacing)
    (hu : t.sizes[u]? = some (m.width, m.height)) (hv : t.sizes[v]? = some (n.width, n.height))
    (hlt : (nodeLayers t).getD u 0 < (nodeLayers t).getD v 0) :
    (m.boxAt ((centreOf t o u).sub c)).Beyond o.direction o.nodeSpacing
      (n.boxAt ((centreOf t o v).sub c)) := by
  have hmiddle := middleOf_le o ht hnode hu hv hlt
  rw [(extents_eq o ht hu).1, (extents_eq o ht hv).1] at hmiddle
  rw [centreOf_eq, centreOf_eq]
  cases hd : o.direction <;>
    simp only [hd, Direction.isHorizontal, Bool.false_eq_true, ↓reduceIte, Box.Beyond,
      SizedNode.boxAt, Point.sub, ofNat_two_eq] at hmiddle ⊢ <;>
    linarith

/-- A node beside another ends before the other begins, wherever the whole is moved. -/
theorem boxAt_le_of_beside (ht : t.IsProper) (hu : t.sizes[u]? = some (m.width, m.height))
    (hv : t.sizes[v]? = some (n.width, n.height))
    (h : Beside (vertexList t o).toArray (u, acrossOf t o u) (v, acrossOf t o v)) :
    let a := m.boxAt ((centreOf t o u).sub c)
    let b := n.boxAt ((centreOf t o v).sub c)
    if o.direction.isHorizontal then a.y + a.height ≤ b.y else a.x + a.width ≤ b.x := by
  simp only [beside_iff, (extents_eq o ht hu).2, (extents_eq o ht hv).2] at h
  rw [centreOf_eq, centreOf_eq]
  cases hd : o.direction <;>
    simp only [hd, Direction.isHorizontal, Bool.false_eq_true, ↓reduceIte, SizedNode.boxAt,
      Point.sub, ofNat_two_eq] at h ⊢ <;>
    linarith

/-- **No two nodes overlap**, wherever the whole is moved. -/
theorem disjoint_boxAt (ht : t.IsProper) (hnode : 0 ≤ o.nodeSpacing) (hedge : 0 ≤ o.edgeSpacing)
    (hu : t.sizes[u]? = some (m.width, m.height)) (hv : t.sizes[v]? = some (n.width, n.height))
    (hne : u ≠ v) : Disjoint (m.boxAt ((centreOf t o u).sub c)).interior
      (n.boxAt ((centreOf t o v).sub c)).interior := by
  rcases lt_trichotomy ((nodeLayers t).getD u 0) ((nodeLayers t).getD v 0) with hlt | heq | hlt
  · exact (beyond_boxAt o c ht hnode hu hv hlt).disjoint hnode
  · refine disjoint_interior ?_
    rcases beside_acrossOf o ht hnode hedge hu hv heq hne with h | h
    · have h := boxAt_le_of_beside o c ht hu hv h
      dsimp only at h
      split at h
      · exact .inr (.inl h)
      · exact .inl (.inl h)
    · have h := boxAt_le_of_beside o c ht hv hu h
      dsimp only at h
      split at h
      · exact .inr (.inr h)
      · exact .inl (.inr h)
  · exact ((beyond_boxAt o c ht hnode hv hu hlt).disjoint hnode).symm

/-! ## Layouts -/

theorem Topology.IsOf.isProper {g : LayoutGraph K} (h : t.IsOf g)
    (hsizes : ∀ n ∈ g.nodes, 0 ≤ n.width ∧ 0 ≤ n.height) : t.IsProper where
  links _ harc := h.lt_size harc
  sizes := by
    rw [h.sizes]
    exact List.forall_mem_map.mpr hsizes

/-- A layered layout, in exact arithmetic.  The functions of the metric do not occur in it. -/
theorem layOut_eq_realize_layered (hypot : K → K → K) (sin cos : K → K) (pi : K)
    {g : LayoutGraph K} {t : Topology K} (ht : g.topology = .ok t) {o : Options K}
    (h : o.algorithm = .layered) :
    @layOut K (Metric.exact hypot sin cos pi) g o = (layered t o).realize g t := by
  have harrange : @arrange K (Metric.exact hypot sin cos pi) t o = layered t o := by
    simp only [arrange, h]
  rw [@layOut_eq_realize K (Metric.exact hypot sin cos pi) g t ht o, harrange]

/-- The placed nodes of a layered arrangement. -/
theorem getElem?_placed {g : LayoutGraph K} (h : t.IsOf g) (i : Nat) :
    ((g.nodes.zip (layered t o).centers).map fun nq : SizedNode K × Point K =>
      (⟨nq.1.id, nq.1.boxAt (nq.2.sub c)⟩ : PlacedNode K))[i]? =
        g.nodes[i]?.map fun n => ⟨n.id, n.boxAt ((centreOf t o i).sub c)⟩ := by
  rw [centers_layered, h.size_eq]
  exact getElem?_zip_map_range g.nodes _ _ i

variable {o c}

/-- The nodes that an edge names are placed, the second beyond the first. -/
def LayoutResult.LeadsOn (r : LayoutResult K) (g : LayoutGraph K) (o : Options K)
    (e : GraphEdge) : Prop :=
  ∃ i j a b, indexOf? g.nodes e.source = some i ∧ indexOf? g.nodes e.target = some j ∧
    r.nodes[i]? = some a ∧ r.nodes[j]? = some b ∧
      a.box.Beyond o.direction o.nodeSpacing b.box

/-- **A layered layout**, in exact arithmetic.  A graph whose edges end at its nodes is laid out, no
two boxes overlap, and every edge between two nodes that was not turned around leads on, with the
node spacing between its ends. -/
theorem layOut_layered (hypot : K → K → K) (sin cos : K → K) (pi : K) {g : LayoutGraph K}
    (hg : g.IsClosed) (hsizes : ∀ n ∈ g.nodes, 0 ≤ n.width ∧ 0 ≤ n.height) {o : Options K}
    (halgorithm : o.algorithm = .layered) (hnode : 0 ≤ o.nodeSpacing) (hedge : 0 ≤ o.edgeSpacing) :
    ∃ t r, g.topology = .ok t ∧ @layOut K (Metric.exact hypot sin cos pi) g o = .ok r ∧
      r.Answers g ∧ r.nodes.Pairwise (fun a b => Disjoint a.box.interior b.box.interior) ∧
      ∀ k e, g.edges[k]? = some e → e.source ≠ e.target →
        k ∉ (assignLayers t.size t.links).2 → r.LeadsOn g o e := by
  obtain ⟨t, ht, hof⟩ := exists_topology hg
  have hproper := hof.isProper hsizes
  obtain ⟨c, r, hr, hanswers, hnodes⟩ := exists_realize hof (covers_layered t o)
  have hplaced : ∀ i : Nat, r.nodes[i]? =
      g.nodes[i]?.map fun n => ⟨n.id, n.boxAt ((centreOf t o i).sub c)⟩ := fun i =>
    hnodes ▸ getElem?_placed o c hof i
  have hlayout := layOut_eq_realize_layered hypot sin cos pi ht halgorithm
  refine ⟨t, r, ht, hlayout.trans hr, hanswers, ?_, fun k e hk hne honward => ?_⟩
  · refine List.pairwise_iff_getElem.mpr fun i j hi hj hij => ?_
    obtain ⟨m, hm, ha⟩ := Option.map_eq_some_iff.mp
      ((hplaced i).symm.trans (List.getElem?_eq_getElem hi))
    obtain ⟨n, hn, hb⟩ := Option.map_eq_some_iff.mp
      ((hplaced j).symm.trans (List.getElem?_eq_getElem hj))
    rw [← ha, ← hb]
    exact disjoint_boxAt o c hproper hnode hedge (hof.getElem?_sizes hm) (hof.getElem?_sizes hn)
      hij.ne
  · obtain ⟨i, j, hlink, hi, hj⟩ := hof.exists_link hk
    obtain ⟨m, hm, hmid⟩ := exists_of_indexOf? hi
    obtain ⟨n, hn, hnid⟩ := exists_of_indexOf? hj
    have hij : i ≠ j := by
      rintro rfl
      exact hne (hmid.symm.trans (by rw [← hnid, Option.some.inj (hm.symm.trans hn)]))
    refine ⟨i, j, _, _, hi, hj, by rw [hplaced, hm]; rfl, by rw [hplaced, hn]; rfl, ?_⟩
    exact beyond_boxAt o c hproper hnode (hof.getElem?_sizes hm) (hof.getElem?_sizes hn)
      (getD_nodeLayers_lt hproper hlink hij honward)

end

/-- Two nodes that lead to each other, and a third one behind the first.  Only the edge that leads
back is turned around. -/
theorem layOut_layered_cycle :
    let ab : GraphEdge := ⟨"1", "a", "b", none⟩
    let ac : GraphEdge := ⟨"3", "a", "c", none⟩
    let g : LayoutGraph ℚ := ⟨[⟨"a", 3, 1, none⟩, ⟨"b", 1, 1, none⟩, ⟨"c", 2, 2, none⟩],
      [ab, ⟨"2", "b", "a", none⟩, ac]⟩
    let o : Options ℚ := ⟨.layered, .up, 2, 1⟩
    g.IsClosed ∧ (∀ n ∈ g.nodes, 0 ≤ n.width ∧ 0 ≤ n.height) ∧
      ∃ r, @layOut ℚ (Metric.exact max id id 3) g o = .ok r ∧
        r.nodes.Pairwise (fun a b => Disjoint a.box.interior b.box.interior) ∧
        r.LeadsOn g o ab ∧ r.LeadsOn g o ac := by
  intro ab ac g o
  have hg : g.IsClosed := by
    unfold LayoutGraph.IsClosed
    decide
  have hsizes : ∀ n ∈ g.nodes, 0 ≤ n.width ∧ 0 ≤ n.height := by decide
  have htopology : g.topology = .ok ⟨[(3, 1), (1, 1), (2, 2)], [(0, 1), (1, 0), (0, 2)]⟩ := rfl
  have hreversed : (assignLayers 3 [(0, 1), (1, 0), (0, 2)]).2 = [1] := by decide
  obtain ⟨t, r, ht, hr, -, hdisjoint, hleads⟩ :=
    layOut_layered max id id 3 hg hsizes (o := o) rfl (by decide) (by decide)
  obtain rfl := Except.ok.inj (htopology.symm.trans ht)
  refine ⟨hg, hsizes, r, hr, hdisjoint, ?_, ?_⟩
  · exact hleads 0 ab rfl (by decide) (by simp [Topology.size, hreversed])
  · exact hleads 2 ac rfl (by decide) (by simp [Topology.size, hreversed])

end Diagram
