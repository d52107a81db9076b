import Diagram.Proofs.Depictions
import Diagram.Proofs.Exact

/-!
# Documents behind their own drawings

A drawing keeps no names and no graph, only boxes and lines.  Yet the graph is found again in
exact arithmetic, when the boxes of the nodes do not touch: an edge is drawn from the middle of
one box to the middle of another, each of them is at distance zero from its own box, and every
other box is farther away, however near it is.  The operator of an edge is told by its heads,
its dashes and its width.
-/

namespace Diagram

/-! ## The nearest box -/

/-- The least of some values comes first when they are sorted. -/
theorem head?_mergeSort {β : Type} (f : β → ℝ) {xs : List β} {x : β} (hx : x ∈ xs)
    (hleast : ∀ y ∈ xs, f y ≤ f x → y = x) :
    (xs.mergeSort fun a b => f a ≤ f b).head? = some x := by
  have hsorted : (xs.mergeSort fun a b => f a ≤ f b).Pairwise fun a b => f a ≤ f b :=
    List.pairwise_mergeSort' (Order.Preimage f (· ≤ ·)) xs
  have hmem : x ∈ xs.mergeSort fun a b => f a ≤ f b := List.mem_mergeSort.mpr hx
  cases h : xs.mergeSort fun a b => f a ≤ f b with
  | nil =>
    rw [h] at hmem
    cases hmem
  | cons y ys =>
    have hy : y ∈ xs := List.mem_mergeSort.mp (h ▸ List.mem_cons_self)
    rw [h] at hsorted hmem
    rcases List.mem_cons.mp hmem with rfl | hrest
    · rfl
    · exact congrArg some (hleast y hy (List.rel_of_pairwise_cons hsorted hrest))

/-- The boxes of some nodes have no point in common. -/
def AreApart (cs : List (Candidate ℝ)) : Prop :=
  cs.Pairwise fun a b => Disjoint a.box.region b.box.region

/-- A point is in one box at most. -/
theorem AreApart.eq_of_mem {cs : List (Candidate ℝ)} (h : AreApart cs) {a b : Candidate ℝ}
    (ha : a ∈ cs) (hb : b ∈ cs) {p : Point ℝ} (hpa : p ∈ a.box.region) (hpb : p ∈ b.box.region) :
    a = b := by
  by_contra hne
  have : Std.Symm fun a b : Candidate ℝ => Disjoint a.box.region b.box.region :=
    ⟨fun _ _ hdisjoint => hdisjoint.symm⟩
  exact Set.disjoint_left.mp (List.Pairwise.forall h ha hb hne) hpa hpb

/-- **In a box that touches no other, that box is the nearest.** -/
theorem head?_nearest {cs : List (Candidate ℝ)} (h : AreApart cs) {c : Candidate ℝ} (hc : c ∈ cs)
    {p : Point ℝ} (hp : p ∈ c.box.region) : (nearest cs p).head? = some (c, 0) := by
  have hzero : c.box.distanceTo p = 0 := Box.distanceTo_eq_zero_iff.mpr hp
  refine head?_mergeSort Prod.snd (List.mem_filter.mpr ⟨?_, ?_⟩) fun x hx hle => ?_
  · exact List.mem_map.mpr ⟨c, hc, by rw [hzero]⟩
  · simp [reach, Scalar.ofNat]
  · obtain ⟨b, hb, rfl⟩ := List.mem_map.mp (List.mem_filter.mp hx).1
    have hb0 : b.box.distanceTo p = 0 := le_antisymm hle (Box.distanceTo_nonneg _ _)
    rw [h.eq_of_mem hb hc (Box.distanceTo_eq_zero_iff.mp hb0) hp, hzero]

/-- A connector between points of two boxes joins their nodes. -/
theorem joined?_of_mem {cs : List (Candidate ℝ)} (h : AreApart cs) {a b : Candidate ℝ}
    (ha : a ∈ cs) (hb : b ∈ cs) (hne : a.id ≠ b.id) {p q : Point ℝ} (hp : p ∈ a.box.region)
    (hq : q ∈ b.box.region) : joined? cs p q = some (a.id, b.id) := by
  obtain ⟨as, has⟩ := List.head?_eq_some_iff.mp (head?_nearest h ha hp)
  obtain ⟨bs, hbs⟩ := List.head?_eq_some_iff.mp (head?_nearest h hb hq)
  rw [joined?, has, hbs]
  exact if_pos hne

/-! ## The shape of an edge -/

section Edges

variable {e : Edge ℝ} (h : e.style.isEmpty) (id : ShapeId) (source target : ShapeId)

include h

/-- The line of an edge runs from one centre to the other. -/
@[simp] theorem endpoints_edgeShape (a b : Box ℝ) :
    (edgeShape id e (centerLine a b) source target).endpoints = some (a.center, b.center) := by
  have hpoints : anchorEnd e.style (anchorStart e.style (centerLine a b)) =
      [a.center, b.center] := by
    rw [Style.isEmpty_iff.mp h]
    rfl
  simp only [edgeShape, Shape.connector, hpoints]
  cases headsOf e.arrow <;>
    exact congrArg some (Prod.ext (add_offset_eq _ _) (add_offset_eq _ _))

/-- **The operator of an edge is told by its shape.** -/
@[simp] theorem arrowKind_edgeShape (points : List (Point ℝ)) :
    (edgeShape id e points source target).arrowKind = e.arrow := by
  have hthin : ¬ (Scalar.ofNat 4 : ℝ) ≤ Scalar.ofNat 2 := by norm_num [Scalar.ofNat]
  have hwide : (Scalar.ofNat 4 : ℝ) ≤ Scalar.ofNat 2 * Scalar.ofNat 2 := by norm_num [Scalar.ofNat]
  simp only [edgeShape, edgePaint, Style.isEmpty_iff.mp h]
  cases e.arrow with
  | right => exact if_neg hthin
  | thick => exact if_pos hwide
  | left | both | dotted | line => rfl

omit h in
@[simp] theorem label_edgeShape (points : List (Point ℝ)) :
    (edgeShape id e points source target).label = e.label := by
  simp only [edgeShape, Shape.connector]
  cases headsOf e.arrow <;> rfl

/-- The edge behind the shape of an edge between two nodes. -/
theorem inferEdge?_edgeShape {cs : List (Candidate ℝ)} (hapart : AreApart cs) {a b : Candidate ℝ}
    (ha : a ∈ cs) (hb : b ∈ cs) (hne : a.id ≠ b.id) :
    inferEdge? cs (edgeShape id e (centerLine a.box b.box) source target) =
      some { source := a.id, target := b.id, arrow := e.arrow, label := e.label } := by
  have hjoined := joined?_of_mem hapart ha hb hne (Box.center_mem_region a.box)
    (Box.center_mem_region b.box)
  simp only [inferEdge?, endpoints_edgeShape h, arrowKind_edgeShape h, label_edgeShape,
    Option.bind_eq_bind, Option.bind_some, hjoined]
  rfl

end Edges

@[simp] theorem inferEdge?_withId (cs : List (Candidate ℝ)) (s : Shape ℝ) (id : ShapeId) :
    inferEdge? cs (s.withId id) = inferEdge? cs s := rfl

@[simp] theorem inferEdge?_nodeShape (cs : List (Candidate ℝ)) (id : ShapeId) (n : Node ℝ)
    (b : Box ℝ) : inferEdge? cs (nodeShape id n b) = none := by
  simp only [nodeShape, nodeFigure]
  cases n.shapeOrDefault <;> rfl

/-! ## The nodes of a drawing -/

/-- A document that can be found again in its drawing: its nodes say where they are, apart from
each other, its edges join two different nodes and say nothing of their style, and it has no
free arrows. -/
structure Document.IsRecoverable (d : Document ℝ) : Prop where
  nodup : d.nodeIds.Nodup
  placed : ∀ n ∈ d.nodes, n.style.x.isSome ∧ n.style.y.isSome
  apart : d.nodes.Pairwise fun m n => Disjoint m.statedBox.region n.statedBox.region
  declared : ∀ e ∈ d.edges, e.source ∈ d.nodeIds ∧ e.target ∈ d.nodeIds
  distinct : ∀ e ∈ d.edges, e.source ≠ e.target
  unstyled : ∀ e ∈ d.edges, e.style.isEmpty
  attached : d.freeArrows = []

/-- The name that the node behind a node's shape is given. -/
def Document.nameBehind {α : Type} (d : Document α) (name : String) : String :=
  generatedId (d.nodeIds.idxOf name)

/-- The edge behind an edge of the document. -/
def Document.edgeBehind (d : Document ℝ) (e : Edge ℝ) : Edge ℝ where
  source := d.nameBehind e.source
  target := d.nameBehind e.target
  arrow := e.arrow
  label := e.label

/-- Different nodes are given different names. -/
theorem nameBehind_inj {α : Type} {d : Document α} {a b : String} (ha : a ∈ d.nodeIds) :
    d.nameBehind a = d.nameBehind b ↔ a = b :=
  generatedId_injective.eq_iff.trans (List.idxOf_inj ha)

/-- The nodes are given names in order. -/
theorem map_nameBehind {α : Type} {d : Document α} (h : d.nodeIds.Nodup) :
    d.nodeIds.map d.nameBehind = (List.range d.nodeIds.length).map generatedId := by
  refine List.ext_getElem (by simp) fun i _ _ => ?_
  rw [List.getElem_map, List.getElem_map, List.getElem_range, Document.nameBehind,
    h.idxOf_getElem i]

/-- The shape of the node behind a frame. -/
def Frame.nodeShape {α : Type} (o : Frame α) : NodeShape := if o.isEllipse then .circle else .rect

theorem nodeShape_frame {α : Type} (c : Candidate α) :
    c.frame.nodeShape = c.shape.figure.nodeShape := by
  rw [Frame.nodeShape, Candidate.frame]
  cases c.shape.figure <;> rfl

section Drawn

variable {d : Document ℝ} (ids : Nat → ShapeId)

theorem frames_candidates_draw : (candidates (d.draw ids .stated)).map Candidate.frame =
    d.nodes.map fun n => n.frame n.statedBox := by
  rw [← frames_eq, Document.draw, frames_drawAll, List.map_map]
  rfl

/-- **The nodes behind the drawing of a document are its own**, in order and under other
names. -/
theorem candidates_draw (h : d.nodeIds.Nodup) :
    (candidates (d.draw ids .stated)).map (fun c => (c.id, c.frame)) =
      d.nodes.map fun n => (d.nameBehind n.id, n.frame n.statedBox) := by
  have hframes := frames_candidates_draw (d := d) ids
  have hlength : (candidates (d.draw ids .stated)).length = d.nodeIds.length := by
    simpa [Document.nodeIds] using congrArg List.length hframes
  have hnames : (candidates (d.draw ids .stated)).map Candidate.id =
      d.nodes.map fun n => d.nameBehind n.id := by
    rw [ids_candidates, hlength, ← map_nameBehind h, Document.nodeIds, List.map_map]
    rfl
  rw [← List.zip_map', ← List.zip_map', hnames, hframes]

/-- The boxes of the nodes behind a drawing do not touch when those of the document do not. -/
theorem areApart_candidates_draw (h : d.IsRecoverable) :
    AreApart (candidates (d.draw ids .stated)) := by
  have hapart : (d.nodes.map fun n => n.frame n.statedBox).Pairwise
      fun a b => Disjoint a.box.region b.box.region := List.pairwise_map.mpr h.apart
  rw [← frames_candidates_draw ids] at hapart
  exact hapart.of_map Candidate.frame fun _ _ hdisjoint => hdisjoint

/-- The node behind the shape of a node. -/
theorem exists_candidate (h : d.nodeIds.Nodup) {n : Node ℝ} (hn : n ∈ d.nodes) :
    ∃ c ∈ candidates (d.draw ids .stated), c.id = d.nameBehind n.id ∧ c.box = n.statedBox := by
  have hmem : (d.nameBehind n.id, n.frame n.statedBox) ∈
      (candidates (d.draw ids .stated)).map fun c => (c.id, c.frame) := by
    rw [candidates_draw ids h]
    exact List.mem_map_of_mem hn
  obtain ⟨c, hc, hnode⟩ := List.mem_map.mp hmem
  exact ⟨c, hc, congrArg Prod.fst hnode, congrArg (fun x => x.2.box) hnode⟩

/-- Every edge that is drawn is found again. -/
theorem inferEdge?_drawEdge? (h : d.IsRecoverable) {e : Edge ℝ} (he : e ∈ d.edges) :
    ((drawEdge? (drawNodes ids (d.nodes.map fun n => (n, Plan.stated.box n))).1 centerLine e).map
        (· default)).bind (inferEdge? (candidates (d.draw ids .stated))) =
      some (d.edgeBehind e) := by
  obtain ⟨hsource, htarget⟩ := h.declared e he
  obtain ⟨m, hm, hmid⟩ := List.mem_map.mp hsource
  obtain ⟨n, hn, hnid⟩ := List.mem_map.mp htarget
  obtain ⟨a, ha, haid, habox⟩ := exists_candidate ids h.nodup hm
  obtain ⟨b, hb, hbid, hbbox⟩ := exists_candidate ids h.nodup hn
  have hne : a.id ≠ b.id := by
    rw [haid, hbid, hmid, hnid, ne_eq, nameBehind_inj hsource]
    exact h.distinct e he
  rw [drawEdge?, ← hmid, ← hnid, findDrawn?_of_mem h.nodup ids Plan.stated.box hm,
    findDrawn?_of_mem h.nodup ids Plan.stated.box hn]
  change inferEdge? _ (edgeShape default e (centerLine m.statedBox n.statedBox) _ _) = _
  rw [← habox, ← hbbox, inferEdge?_edgeShape (h.unstyled e he) _ _ _
    (areApart_candidates_draw ids h) ha hb hne, haid, hbid, hmid, hnid]
  rfl

/-- **The edges behind the drawing of a document are its own**, in order. -/
theorem filterMap_inferEdge?_draw (h : d.IsRecoverable) :
    (d.draw ids .stated).filterMap (inferEdge? (candidates (d.draw ids .stated))) =
      d.edges.map d.edgeBehind := by
  have hdrawn := fun e (he : e ∈ d.edges) => inferEdge?_drawEdge? ids h he
  generalize candidates (d.draw ids .stated) = cs at hdrawn ⊢
  have hnodes : ((d.nodes.map fun n => (n, Plan.stated.box n)).map
      fun b => nodeShape default b.1 b.2).filterMap (inferEdge? cs) = [] := by
    rw [List.map_map, List.filterMap_map, List.filterMap_eq_nil_iff]
    exact fun n _ => inferEdge?_nodeShape ..
  have hedges : (d.edges.mapIdx fun i e => (e, Plan.stated.way i)).filterMap (fun e =>
      ((drawEdge? (drawNodes ids (d.nodes.map fun n => (n, Plan.stated.box n))).1 e.2 e.1).map
        (· default)).bind (inferEdge? cs)) = d.edges.map d.edgeBehind := by
    rw [← List.filterMap_eq_map_iff_forall_eq_some.mpr hdrawn]
    exact filterMap_mapIdx (f := fun i e => (e, Plan.stated.way i)) (fun _ _ => rfl) d.edges
  rw [Document.draw, h.attached, filterMap_drawAll (inferEdge?_withId cs), bodies,
    List.filterMap_append, List.filterMap_append, List.filterMap_filterMap, hnodes, hedges]
  simp

end Drawn

/-- **A document is found again behind its own drawing.**  In exact arithmetic, when its nodes
are placed apart from each other, its edges join two different nodes and say nothing of their
style, and there are no free arrows: it is drawn without asking an engine, and behind the
drawing there is one node for each of its nodes in order, a circle exactly for a circle, with
the same label, and one edge for each of its edges in order, between the nodes behind its ends,
with the same operator and label. -/
theorem inferDocument_compileIn (positions : Bool) (ids : Nat → ShapeId) (o : Options ℝ)
    {d : Document ℝ} (h : d.IsRecoverable) :
    ∃ shapes, (∀ (m : Type → Type) [Monad m] (engine : Engine m ℝ),
        d.compileIn engine ids o = pure (.ok shapes)) ∧
      (inferDocument positions shapes).nodes.map (fun n => (n.id, n.shape, n.label)) =
        d.nodes.map (fun n => (d.nameBehind n.id,
          some (if n.shapeOrDefault = .circle then .circle else .rect), n.label)) ∧
      (inferDocument positions shapes).edges.map
          (fun e => (e.source, e.target, e.arrow, e.label)) =
        d.edges.map (fun e => (d.nameBehind e.source, d.nameBehind e.target, e.arrow, e.label)) ∧
      ∀ a ∈ d.nodeIds, ∀ b ∈ d.nodeIds, d.nameBehind a = d.nameBehind b → a = b := by
  refine ⟨d.draw ids .stated, fun m _ engine => ?_, ?_, ?_, fun a ha b _ => (nameBehind_inj ha).mp⟩
  · exact compileIn_of_isPlaced engine ids (isPlaced_iff.mpr h.placed) o
  · have hnodes := congrArg
      (List.map fun x => (x.1, some x.2.nodeShape, x.2.label)) (candidates_draw ids h.nodup)
    simp only [List.map_map, Function.comp_def, nodeShape_frame] at hnodes
    rw [inferDocument_eq, Document.nodes_ofGraph, List.map_map]
    refine hnodes.trans ?_
    simp only [Frame.nodeShape, Node.frame, beq_iff_eq]
  · rw [inferDocument_eq, Document.edges_ofGraph, filterMap_inferEdge?_draw ids h, List.map_map]
    rfl

/-- Neighbours within reach of each other's middle, one of them of negative width, inside and
outside a group, with an edge of each operator. -/
theorem inferDocument_compileIn_group :
    let d : Document ℝ :=
      ⟨[.group "g" {} [
          .node { style := { x := some 0, y := some 0 }
                  id := "web", shape := some .circle, label := some "Web" },
          .edge { source := "web", target := "db", arrow := .thick, label := some "reads" },
          .edge { source := "web", target := "log", arrow := .dotted }],
        .node { style := { x := some 170, y := some 0, width := some (-80) }
                id := "db", shape := some .cylinder },
        .edge { source := "log", target := "db", arrow := .both },
        .edge { source := "db", target := "web", arrow := .left },
        .node { id := "log", style := { x := some 171, y := some 10, width := some 0 } },
        .edge { source := "log", target := "web", arrow := .line },
        .edge { source := "db", target := "log", arrow := .right, label := some "writes" }], []⟩
    let engine : Engine (StateM Nat) ℝ := fun _ _ => do
      modify (· + 1)
      return .error (.engine "out of order")
    d.IsRecoverable ∧
      ∃ shapes, d.compileIn engine (ShapeId.random 7) .default = pure (.ok shapes) ∧
        (inferDocument true shapes).nodes.map (fun n => (n.id, n.shape, n.label)) =
          [("a", some .circle, some "Web"), ("b", some .rect, none), ("c", some .rect, none)] ∧
        (inferDocument true shapes).edges.map
            (fun e => (e.source, e.target, e.arrow, e.label)) =
          [("a", "b", .thick, some "reads"), ("a", "c", .dotted, none), ("c", "b", .both, none),
            ("b", "a", .left, none), ("c", "a", .line, none),
            ("b", "c", .right, some "writes")] := by
  intro d engine
  have h : d.IsRecoverable := by
    constructor
    · decide
    · decide
    · have hboxes : d.nodes.map Node.statedBox = [⟨0, 0, Scalar.ofNat 80, Scalar.ofNat 80⟩,
          ⟨170, 0, -80, Scalar.ofNat 100⟩, ⟨171, 10, 0, Scalar.ofNat 60⟩] := rfl
      have hapart : (d.nodes.map Node.statedBox).Pairwise
          fun a b => Disjoint a.region b.region := by
        rw [hboxes]
        simp only [List.pairwise_cons, List.forall_mem_cons, List.not_mem_nil, false_implies,
          implies_true, and_true, List.Pairwise.nil]
        refine ⟨⟨?_, ?_⟩, ?_⟩ <;> apply Box.disjoint_region_of_gap <;> norm_num [Scalar.ofNat]
      exact hapart.of_map Node.statedBox fun _ _ hdisjoint => hdisjoint
    · decide
    · decide
    · decide
    · rfl
  obtain ⟨shapes, hdrawn, hnodes, hedges, -⟩ :=
    inferDocument_compileIn true (ShapeId.random 7) .default h
  refine ⟨h, shapes, hdrawn _ engine, ?_, ?_⟩
  · rw [hnodes]
    rfl
  · rw [hedges]
    rfl

end Diagram
