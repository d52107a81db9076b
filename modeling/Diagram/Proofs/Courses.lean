import Diagram.Proofs.Depictions
import Diagram.Proofs.Fields
import Diagram.Proofs.Finite

/-!
# The courses of edges

In exact arithmetic a connector lies where it is drawn, although it keeps its points relative to the
first of them.  An edge runs from the centre of one box to the centre of another, unless an engine
has sections for it: these follow each other, and where one begins at the point in which the one
before it ends, that point is passed once.  In the end each of the four coordinates that the edge
states for itself takes the place of the one that was found.
-/

namespace Diagram

/-! ## Names of edges -/

theorem edgeKey_injective : Function.Injective edgeKey := by
  intro i j h
  have hdigits : toString i = toString j := (String.append_right_inj "e").mp h
  exact Nat.repr_injective hdigits

/-- **An engine knows every edge under a name of its own.** -/
theorem nodup_ids_layoutGraph {α : Type} [Scalar α] (d : Document α) :
    (d.layoutGraph.edges.map GraphEdge.id).Nodup := by
  have hids : d.layoutGraph.edges.map GraphEdge.id = (List.range d.edges.length).map edgeKey := by
    refine List.ext_getElem (by simp [Document.layoutGraph]) fun i _ _ => ?_
    simp [Document.layoutGraph, GraphEdge.ofEdge]
  rw [hids]
  exact List.nodup_range.map edgeKey_injective

/-! ## Sections of an edge -/

section

variable {K : Type} [DecidableEq K]

/-- The points of some sections behind a point.  A section that begins there adds what comes after
its start, and any other section all of its points. -/
def pointsBehind (p : Point K) : List (Section K) → List (Point K)
  | [] => []
  | s :: ss =>
    (if s.startPoint = p then s.bendPoints ++ [s.endPoint] else s.polyline) ++
      pointsBehind s.endPoint ss

omit [DecidableEq K] in
/-- The sections that an answer has for the edge of a name: those of the last entry, and none
without an entry. -/
def LayoutResult.sectionsOf (r : LayoutResult K) (key : String) : List (Section K) :=
  ((r.edges.filter fun e => e.id == key).getLast?).elim [] RoutedEdge.sections

/-- The way from box to box that an answer has for the edge of a name: along its sections, or else
from centre to centre. -/
def LayoutResult.routeOf [Scalar K] (r : LayoutResult K) (key : String) (a b : Box K) :
    List (Point K) :=
  match r.sectionsOf key with
  | [] => [a.center, b.center]
  | s :: ss => s.polyline ++ pointsBehind s.endPoint ss

end

section

variable {K : Type} [Field K] [LinearOrder K] [IsStrictOrderedRing K] [FloorRing K]

attribute [local instance] Scalar.exact

theorem same_point_iff {p q : Point K} : p.same q = true ↔ p = q := by
  rw [Point.same, Bool.and_eq_true, same_exact_iff, same_exact_iff, Point.mk.injEq]

omit [Field K] [LinearOrder K] [IsStrictOrderedRing K] [FloorRing K] in
@[simp] theorem getLast?_polyline (s : Section K) : s.polyline.getLast? = some s.endPoint :=
  List.getLast?_concat

/-- A section is joined to points that end somewhere. -/
theorem joinPolyline_polyline {points : List (Point K)} {p : Point K}
    (h : points.getLast? = some p) (s : Section K) : joinPolyline points s.polyline =
      points ++ if s.startPoint = p then s.bendPoints ++ [s.endPoint] else s.polyline := by
  simp only [joinPolyline, Section.polyline, h, List.cons_append]
  by_cases hp : p = s.startPoint
  · rw [if_pos (same_point_iff.mpr hp), if_pos hp.symm]
  · rw [if_neg (mt same_point_iff.mp hp), if_neg (Ne.symm hp)]

/-- **Sections are joined one behind the other**, each from the end of the one before it. -/
theorem foldl_joinPolyline {points : List (Point K)} {p : Point K} (h : points.getLast? = some p)
    (ss : List (Section K)) :
    ss.foldl (fun points s => joinPolyline points s.polyline) points =
      points ++ pointsBehind p ss := by
  induction ss generalizing points p with
  | nil => simp [pointsBehind]
  | cons s ss ih =>
    have hlast : (joinPolyline points s.polyline).getLast? = some s.endPoint := by
      rw [joinPolyline_polyline h]
      split
      · simp
      · rw [List.getLast?_append, getLast?_polyline, Option.some_or]
    rw [List.foldl_cons, ih hlast, joinPolyline_polyline h, pointsBehind, List.append_assoc]

theorem pathOf_eq (r : LayoutResult K) (i : Nat) (a b : Box K) :
    r.pathOf i a b = r.routeOf (edgeKey i) a b := by
  have hentry : r.edges.reverse.find? (fun e => e.id == edgeKey i) =
      (r.edges.filter fun e => e.id == edgeKey i).getLast? := by
    rw [← List.head?_filter, List.filter_reverse, List.head?_reverse]
  rw [LayoutResult.pathOf, LayoutResult.routeOf, LayoutResult.sectionsOf, hentry]
  cases (r.edges.filter fun e => e.id == edgeKey i).getLast? with
  | none => rfl
  | some e =>
    simp only [Option.bind_some, Option.elim_some]
    cases e.sections with
    | nil => rfl
    | cons s ss =>
      rw [joinSections, foldl_joinPolyline (getLast?_polyline s)]
      rfl

/-- A way has two ends. -/
theorem two_le_length_routeOf (r : LayoutResult K) (key : String) (a b : Box K) :
    2 ≤ (r.routeOf key a b).length := by
  rw [LayoutResult.routeOf]
  split
  · exact Nat.le_refl 2
  · simp [Section.polyline]
    omega

end

/-! ## Stated ends -/

section

variable {α : Type}

/-- A course of two or more points whose first point is moved to the `x1` and the `y1` of a style,
and whose last point to its `x2` and `y2`, as far as the style states them. -/
structure IsAnchored (s : Style α) (before after : List (Point α)) : Prop where
  two_le : 2 ≤ before.length
  length_eq : after.length = before.length
  first : after.head? = before.head?.map fun p => ⟨s.x1.getD p.x, s.y1.getD p.y⟩
  last : after.getLast? = before.getLast?.map fun p => ⟨s.x2.getD p.x, s.y2.getD p.y⟩
  between : ∀ i, 0 < i → i + 1 < before.length → after[i]? = before[i]?

theorem anchorEnd_eq (s : Style α) (p q : Point α) (mid : List (Point α)) :
    anchorEnd s (p :: (mid ++ [q])) = p :: (mid ++ [⟨s.x2.getD q.x, s.y2.getD q.y⟩]) := by
  induction mid generalizing p with
  | nil => rfl
  | cons m mid ih => exact congrArg (p :: ·) (ih m)

/-- The ends of a course are moved, each on its own, and nothing between them. -/
theorem isAnchored_anchored (e : Edge α) {points : List (Point α)} (h : 2 ≤ points.length) :
    IsAnchored e.style points (e.anchored points) := by
  obtain _ | ⟨p, rest⟩ := points
  · cases h
  obtain rfl | ⟨mid, q, rfl⟩ := List.eq_nil_or_concat rest
  · simp at h
  rw [List.concat_eq_append] at h ⊢
  have heq : e.anchored (p :: (mid ++ [q])) =
      ⟨e.style.x1.getD p.x, e.style.y1.getD p.y⟩ ::
        (mid ++ [⟨e.style.x2.getD q.x, e.style.y2.getD q.y⟩]) :=
    anchorEnd_eq ..
  rw [heq]
  refine ⟨h, by simp, rfl, ?_, fun i hpos hlt => ?_⟩
  · rw [← List.cons_append, ← List.cons_append, List.getLast?_concat, List.getLast?_concat]
    rfl
  obtain ⟨i, rfl⟩ : ∃ n, i = n + 1 := ⟨i - 1, by omega⟩
  have hmid : i < mid.length := by
    simp only [List.length_cons, List.length_append, List.length_nil] at hlt
    omega
  simp [List.getElem?_append_left hmid]

/-! ## Connectors -/

/-- The shape of the `i`th edge of a drawing: behind those of the nodes, and behind those of the
edges before it that join nodes. -/
def Document.connectorIn (d : Document α) (shapes : List (Shape α)) (i : Nat) : Option (Shape α) :=
  shapes[d.nodes.length + (d.edges.take i).countP d.joins]?

variable [Scalar α]

/-- An edge between two nodes is drawn between their boxes. -/
theorem drawEdge?_of_mem {d : Document α} (h : d.nodeIds.Nodup) (ids : Nat → ShapeId)
    (box : Node α → Box α) (path : Box α → Box α → List (Point α)) {e : Edge α} {m n : Node α}
    (hm : m ∈ d.nodes) (hn : n ∈ d.nodes) (hsource : m.id = e.source) (htarget : n.id = e.target) :
    drawEdge? (drawNodes ids (d.nodes.map fun n => (n, box n))).1 path e = some fun id =>
      edgeShape id e (path (box m) (box n)) (ids (d.nodeIds.idxOf e.source))
        (ids (d.nodeIds.idxOf e.target)) := by
  rw [drawEdge?, ← hsource, ← htarget, findDrawn?_of_mem h ids box hm,
    findDrawn?_of_mem h ids box hn]
  rfl

theorem isSome_drawEdge? {d : Document α} (h : d.nodeIds.Nodup) (ids : Nat → ShapeId)
    (box : Node α → Box α) (path : Box α → Box α → List (Point α)) (e : Edge α) :
    (drawEdge? (drawNodes ids (d.nodes.map fun n => (n, box n))).1 path e).isSome = d.joins e := by
  have hdepiction := congrArg Option.isSome (depiction_drawEdge? h ids box path e)
  rw [Option.isSome_map] at hdepiction
  rw [hdepiction]
  cases d.joins e <;> rfl

/-- What is selected of a member of a list stands behind what is selected of those before it. -/
theorem getElem?_filterMap_of_some {β γ : Type} {f : β → Option γ} {xs : List β} {i : Nat} {x : β}
    {y : γ} (hx : xs[i]? = some x) (hy : f x = some y) :
    (xs.filterMap f)[(xs.take i).countP fun x => (f x).isSome]? = some y := by
  obtain ⟨hi, rfl⟩ := List.getElem?_eq_some_iff.mp hx
  rw [← List.length_filterMap_eq_countP]
  nth_rewrite 1 [← List.take_append_drop i xs]
  rw [List.drop_eq_getElem_cons hi, List.filterMap_append, List.filterMap_cons_some hy]
  exact List.getElem?_append_right (Nat.le_refl _) |>.trans (by rw [Nat.sub_self]; rfl)

/-- **The shape of an edge between two nodes**, drawn by a plan. -/
theorem connectorIn_draw {d : Document α} (h : d.nodeIds.Nodup) (ids : Nat → ShapeId) (p : Plan α)
    {i : Nat} {e : Edge α} (he : d.edges[i]? = some e) {m n : Node α} (hm : m ∈ d.nodes)
    (hn : n ∈ d.nodes) (hsource : m.id = e.source) (htarget : n.id = e.target) :
    d.connectorIn (d.draw ids p) i =
      some (edgeShape (ids (d.nodes.length + (d.edges.take i).countP d.joins)) e
        (p.way i (p.box m) (p.box n)) (ids (d.nodeIds.idxOf e.source))
        (ids (d.nodeIds.idxOf e.target))) := by
  have hdrawn := drawEdge?_of_mem h ids p.box (p.way i) hm hn hsource htarget
  have hedge : (d.edges.mapIdx fun i e => (e, p.way i))[i]? = some (e, p.way i) := by
    rw [List.getElem?_mapIdx, he, Option.map_some]
  have hedges := getElem?_filterMap_of_some (f := fun e =>
    (drawEdge? (drawNodes ids (d.nodes.map fun n => (n, p.box n))).1 e.2 e.1).map (· default))
    hedge (congrArg (Option.map (· default)) hdrawn)
  have hends : (d.edges.mapIdx fun i e => (e, p.way i)).map Prod.fst = d.edges :=
    (map_mapIdx (f := fun i e => (e, p.way i)) (h := id) (fun _ _ => rfl) d.edges).trans
      (List.map_id _)
  -- the edges that are drawn before this one are those that join two nodes
  have hcount : ((d.edges.mapIdx fun i e => (e, p.way i)).take i).countP (fun e =>
      ((drawEdge? (drawNodes ids (d.nodes.map fun n => (n, p.box n))).1 e.2 e.1).map
        (· default)).isSome) = (d.edges.take i).countP d.joins := by
    simp only [Option.isSome_map, isSome_drawEdge? h]
    exact (List.countP_map (p := d.joins) (f := Prod.fst)).symm.trans (by rw [List.map_take, hends])
  rw [hcount] at hedges
  have hnodes : d.nodes.length =
      ((d.nodes.map fun n => (n, p.box n)).map fun b => nodeShape default b.1 b.2).length := by
    simp
  rw [Document.connectorIn, Document.draw, drawAll_eq, List.getElem?_mapIdx, bodies]
  rw [List.getElem?_append_right (by omega), hnodes, Nat.add_sub_cancel_left,
    List.getElem?_append_left (List.getElem?_eq_some_iff.mp hedges).1, hedges]
  exact congrArg some (edgeShape_eq_withId ..).symm

end

/-! ## Exact courses -/

section

variable {K : Type} [Field K] [LinearOrder K] [IsStrictOrderedRing K] [FloorRing K]

attribute [local instance] Scalar.exact

/-- In exact arithmetic a course is not changed by being kept relative to its start. -/
theorem kept_eq (c : List (Point K)) : kept c = c := by
  have hpoint : ∀ p : Point K, (start c).add (p.sub (start c)) = p := by
    intro p
    simp only [Point.add, Point.sub, add_sub_cancel]
  rw [kept, funext hpoint, List.map_id']

/-- The way of the `i`th edge from box to box, given the answer that the engine has for the
document: from centre to centre when all nodes are placed, and otherwise as the answer has it for
the edge that is asked for in its place. -/
def Document.IsRoute (d : Document K) (answer : Except LayoutError (LayoutResult K)) (i : Nat)
    (a b : Box K) (route : List (Point K)) : Prop :=
  if d.isPlaced then route = [a.center, b.center]
  else ∃ r g, answer = .ok r ∧ d.layoutGraph.edges[i]? = some g ∧ route = r.routeOf g.id a b

theorem isRoute_of_isPlan {d : Document K} {answer : Except LayoutError (LayoutResult K)}
    {p : Plan K} (h : d.IsPlan answer p) {i : Nat} {e : Edge K} (he : d.edges[i]? = some e)
    (a b : Box K) : d.IsRoute answer i a b (p.way i a b) ∧ 2 ≤ (p.way i a b).length := by
  rw [Document.IsRoute]
  cases h with
  | stated hplaced =>
    rw [if_pos hplaced]
    exact ⟨rfl, Nat.le_refl 2⟩
  | @answered hplaced r hr _ =>
    have hedge : d.layoutGraph.edges[i]? = some (GraphEdge.ofEdge i e) := by
      rw [Document.layoutGraph, List.getElem?_mapIdx, he, Option.map_some]
    rw [if_neg hplaced]
    refine ⟨⟨r, GraphEdge.ofEdge i e, hr, hedge, pathOf_eq r i a b⟩, ?_⟩
    exact (two_le_length_routeOf r (edgeKey i) a b).trans_eq
      (congrArg List.length (pathOf_eq r i a b)).symm

/-- **Where the connectors of a drawing lie**, in exact arithmetic.  An engine knows each edge under
a name of its own.  The connector of an edge between two nodes stands behind the shapes of all nodes
and of the edges before it, attached to the shapes of its nodes; it leads along the way from box to
box that is stated or that the engine answers for it, where each of the four coordinates that the
edge states for its ends takes the place of the one found, and all other points are left alone. -/
theorem absolutePoints_compileIn {σ : Type} (engine : Engine (StateM σ) K) (ids : Nat → ShapeId)
    {d : Document K} (hnodup : d.nodeIds.Nodup) (o : Options K) (s : σ) {shapes : List (Shape K)}
    (h : ((d.compileIn engine ids o).run s).1 = .ok shapes) :
    (d.layoutGraph.edges.map GraphEdge.id).Nodup ∧
      ∃ box, d.IsBoxed ((engine d.layoutGraph (d.effectiveOptions o)).run s).1 box ∧
        ∀ i e, d.edges[i]? = some e → d.joins e →
          ∃ m ∈ d.nodes, ∃ n ∈ d.nodes, m.id = e.source ∧ n.id = e.target ∧
          ∃ shape route, d.connectorIn shapes i = some shape ∧
            shape.depiction =
              e.depiction (d.shapeIdIn shapes e.source) (d.shapeIdIn shapes e.target) ∧
            d.IsRoute ((engine d.layoutGraph (d.effectiveOptions o)).run s).1 i (box m) (box n)
              route ∧
            IsAnchored e.style route shape.absolutePoints := by
  obtain ⟨p, hplan, rfl⟩ := exists_plan h
  refine ⟨nodup_ids_layoutGraph d, p.box, isBoxed_of_isPlan hplan, fun i e he hjoins => ?_⟩
  obtain ⟨hsource, htarget⟩ := joins_iff.mp hjoins
  obtain ⟨m, hm, hmid⟩ := List.mem_map.mp hsource
  obtain ⟨n, hn, hnid⟩ := List.mem_map.mp htarget
  obtain ⟨hroute, hlength⟩ := isRoute_of_isPlan hplan he (p.box m) (p.box n)
  refine ⟨m, hm, n, hn, hmid, hnid, _, _, connectorIn_draw hnodup ids p he hm hn hmid hnid, ?_,
    hroute, ?_⟩
  · rw [depiction_edgeShape, shapeIdIn_draw hnodup ids p hsource,
      shapeIdIn_draw hnodup ids p htarget]
  · rw [absolutePoints_edgeShape, kept_eq]
    exact isAnchored_anchored e hlength

/-- An edge to a name that no node has, and one that states an `x1` and a `y2`; the engine has two
entries for it, the last one with three sections, the second of which begins where the first
ends. -/
theorem absolutePoints_compileIn_sections :
    let e : Edge ℚ :=
      { source := "a", target := "b", arrow := .thick, style := { x1 := some 1, y2 := some 7 } }
    let d : Document ℚ :=
      ⟨[.group "g" {}
          [.node { id := "a" }, .edge { source := "a", target := "c", arrow := .right }],
        .edge e, .node { id := "b" }], []⟩
    let a : Box ℚ := ⟨0, 0, 120, 60⟩
    let b : Box ℚ := ⟨0, 200, 120, 60⟩
    let answer : LayoutResult ℚ :=
      ⟨[⟨"a", a⟩, ⟨"b", b⟩], [⟨"e1", [⟨⟨0, 0⟩, [], ⟨0, 0⟩⟩]⟩,
        ⟨"e1", [⟨⟨60, 60⟩, [⟨60, 90⟩], ⟨60, 130⟩⟩, ⟨⟨60, 130⟩, [], ⟨60, 200⟩⟩,
          ⟨⟨61, 200⟩, [], ⟨62, 210⟩⟩]⟩]⟩
    let engine : Engine (StateM Nat) ℚ := fun _ _ => do
      modify (· + 1)
      return .ok answer
    let ids := ShapeId.random 7
    d.nodeIds.Nodup ∧ ∃ shapes, ((d.compileIn engine ids .default).run 0).1 = .ok shapes ∧
      ∃ shape, d.connectorIn shapes 1 = some shape ∧
        shape.absolutePoints =
          [⟨1, 60⟩, ⟨60, 90⟩, ⟨60, 130⟩, ⟨60, 200⟩, ⟨61, 200⟩, ⟨62, 7⟩] ∧
        ∃ route, d.IsRoute (.ok answer) 1 a b route ∧
          IsAnchored e.style route shape.absolutePoints := by
  intro e d a b answer engine ids
  have hnodup : d.nodeIds.Nodup := by decide +kernel
  have hpoints : ((d.compileIn engine ids .default).run 0).1.toOption.bind (fun shapes =>
      (d.connectorIn shapes 1).map Shape.absolutePoints) =
        some [⟨1, 60⟩, ⟨60, 90⟩, ⟨60, 130⟩, ⟨60, 200⟩, ⟨61, 200⟩, ⟨62, 7⟩] := by
    decide +kernel
  refine ⟨hnodup, ?_⟩
  cases h : ((d.compileIn engine ids .default).run 0).1 with
  | error e =>
    rw [h] at hpoints
    cases hpoints
  | ok shapes =>
    obtain ⟨-, box, hboxed, hall⟩ := absolutePoints_compileIn engine ids hnodup .default 0 h
    obtain ⟨m, hm, n, hn, hmid, hnid, shape, route, hshape, -, hroute, hanchored⟩ :=
      hall 1 e rfl (by decide +kernel)
    rw [h] at hpoints
    have hmap : (d.connectorIn shapes 1).map Shape.absolutePoints = _ := hpoints
    rw [hshape] at hmap
    rw [Document.IsBoxed, if_neg (by decide +kernel)] at hboxed
    obtain ⟨r, hr, hboxes⟩ := hboxed
    obtain rfl : answer = r := Except.ok.inj hr
    have ha : box m = a := Option.some.inj ((hmid ▸ hboxes m hm).symm.trans rfl)
    have hb : box n = b := Option.some.inj ((hnid ▸ hboxes n hn).symm.trans rfl)
    exact ⟨shapes, rfl, shape, hshape, Option.some.inj hmap, route, ha ▸ hb ▸ hroute, hanchored⟩

end

end Diagram
