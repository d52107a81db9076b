import Diagram.Number.Binary
import Diagram.Proofs.Plans

/-!
# What shapes depict

There is one shape for each thing of a document that can be drawn, in a fixed order: first
the nodes, then the edges between nodes, then the free arrows that state all their
coordinates.  So the shape of a node stands at the place of the node, which is relied on
wherever it is shown where a node is drawn.  An edge is attached to the shapes of its two
nodes.
-/

namespace Diagram

variable {α : Type}

/-! ## Depictions -/

/-- What a shape says of the thing it stands for: all but the colours of a node, and all but
the points and the colours of a connector. -/
inductive Depiction (α : Type) where
  | rectangle (box : Box α) (cornerRadius : α) (label : Option String)
  | ellipse (box : Box α) (label : Option String)
  | line (start stop : Option ShapeId) (dashed : Bool) (label : Option String)
  | arrow (startHead endHead : Bool) (start stop : Option ShapeId) (dashed : Bool)
      (label : Option String)
  | other
  deriving DecidableEq

/-- What a shape says. -/
def Shape.depiction (s : Shape α) : Depiction α :=
  match s.figure with
  | .rectangle w h r label => .rectangle ⟨s.x, s.y, w, h⟩ r label
  | .ellipse w h label => .ellipse ⟨s.x, s.y, w, h⟩ label
  | .line _ start stop label => .line start stop s.paint.dashed label
  | .arrow _ startHead endHead start stop label =>
    .arrow startHead endHead start stop s.paint.dashed label
  | _ => .other

/-- What the shape of an edge says: a line where there is no head, and an arrow otherwise. -/
def Edge.depiction (e : Edge α) (start stop : Option ShapeId) : Depiction α :=
  if e.arrow = .line then .line start stop false e.label
  else
    .arrow (e.arrow = .left ∨ e.arrow = .both) (e.arrow ≠ .left) start stop (e.arrow = .dotted)
      e.label

/-- What the shape of a free arrow says. -/
def Depiction.freeArrow : Depiction α := .arrow false true none none false none

/-- Whether a free arrow states all four coordinates of its ends. -/
def Style.isAnchored (s : Style α) : Bool :=
  s.x1.isSome && s.y1.isSome && s.x2.isSome && s.y2.isSome

/-- The identity of the shape at the place of a node. -/
def Document.shapeIdIn (d : Document α) (shapes : List (Shape α)) (name : String) :
    Option ShapeId :=
  shapes[d.nodeIds.idxOf name]?.map Shape.id

section Drawing

variable [Scalar α]

/-- What the shape of a node says: an ellipse for a circle, and otherwise a rectangle whose
corners tell the shapes apart. -/
def Node.depiction (n : Node α) (b : Box α) : Depiction α :=
  match n.shapeOrDefault with
  | .circle => .ellipse b n.label
  | .rect => .rectangle b (Scalar.ofNat 4) n.label
  | .diamond => .rectangle b (Scalar.ofNat 0) n.label
  | .cylinder => .rectangle b (Scalar.ofNat 8) n.label

/-- What the shapes of a document say, given the boxes of its nodes and the identities of their
shapes. -/
def Document.depictions (d : Document α) (box : Node α → Box α)
    (shapeOf : String → Option ShapeId) : List (Depiction α) :=
  d.nodes.map (fun n => n.depiction (box n)) ++
    ((d.edges.filter d.joins).map (fun e => e.depiction (shapeOf e.source) (shapeOf e.target)) ++
      (d.freeArrows.filter Style.isAnchored).map fun _ => Depiction.freeArrow)

omit [Scalar α] in
@[simp] theorem depiction_withId (s : Shape α) (id : ShapeId) :
    (s.withId id).depiction = s.depiction := rfl

@[simp] theorem depiction_nodeShape (id : ShapeId) (n : Node α) (b : Box α) :
    (nodeShape id n b).depiction = n.depiction b := by
  rw [Node.depiction]
  cases hs : n.shapeOrDefault <;>
    simp only [nodeShape, nodeFigure, hs, Shape.new, Shape.depiction]

@[simp] theorem depiction_edgeShape (id : ShapeId) (e : Edge α) (points : List (Point α))
    (source target : ShapeId) :
    (edgeShape id e points source target).depiction = e.depiction (some source) (some target) := by
  simp only [edgeShape, edgePaint, Shape.connector, Edge.depiction]
  cases e.arrow <;> rfl

omit [Scalar α] in
theorem isSome_course? (s : Style α) : s.course?.isSome = s.isAnchored := by
  rw [Style.course?, Style.isAnchored]
  cases s.x1 <;> cases s.y1 <;> cases s.x2 <;> cases s.y2 <;> rfl

theorem depiction_freeArrowShape? (s : Style α) :
    (freeArrowShape? s).map (fun shape => (shape default).depiction) =
      if s.isAnchored then some .freeArrow else none := by
  rw [freeArrowShape?_eq, Option.map_map, ← isSome_course?]
  cases s.course? <;> rfl

/-! ## Drawn nodes -/

/-- Where keys are distinct, the key of a value finds the value. -/
theorem find?_of_nodup {β : Type} (key : β → String) {xs : List β} (h : (xs.map key).Nodup) {x : β}
    (hx : x ∈ xs) : xs.find? (fun y => key y == key x) = some x := by
  cases hfind : xs.find? fun y => key y == key x with
  | none => exact absurd (beq_self_eq_true (key x)) (List.find?_eq_none.mp hfind x hx)
  | some y =>
    have hkey : key y == key x := List.find?_some (p := fun y => key y == key x) hfind
    rw [List.inj_on_of_nodup_map h (List.mem_of_find?_eq_some hfind) hx (beq_iff_eq.mp hkey)]

/-- A node that is drawn is found by its name, with the identity of its place. -/
theorem findDrawn?_of_mem {ns : List (Node α)} (h : (ns.map Node.id).Nodup) (ids : Nat → ShapeId)
    (box : Node α → Box α) {n : Node α} (hn : n ∈ ns) :
    findDrawn? (drawNodes ids (ns.map fun n => (n, box n))).1 n.id =
      some ⟨n.id, ids ((ns.map Node.id).idxOf n.id), box n⟩ := by
  have hlt : (ns.map Node.id).idxOf n.id < (ns.map Node.id).length :=
    List.idxOf_lt_length_iff.mpr (List.mem_map_of_mem hn)
  have hlt' : (ns.map Node.id).idxOf n.id < ns.length := by simpa using hlt
  have hget : ns[(ns.map Node.id).idxOf n.id] = n := by
    have hid := List.getElem_idxOf hlt
    rw [List.getElem_map] at hid
    exact List.inj_on_of_nodup_map h (List.getElem_mem _) hn hid
  have hnames : (drawNodes ids (ns.map fun n => (n, box n))).1.map Drawn.name = ns.map Node.id := by
    refine List.ext_getElem (by simp [drawNodes]) fun i _ _ => ?_
    simp [drawNodes]
  have hmem : (⟨n.id, ids ((ns.map Node.id).idxOf n.id), box n⟩ : Drawn α) ∈
      (drawNodes ids (ns.map fun n => (n, box n))).1 := by
    refine List.mem_mapIdx.mpr ⟨(ns.map Node.id).idxOf n.id, by simpa using hlt', ?_⟩
    simp only [List.getElem_map, hget]
  refine find?_of_nodup Drawn.name ?_ (List.mem_reverse.mpr hmem)
  rw [List.map_reverse, List.nodup_reverse, hnames]
  exact h

/-! ## All shapes -/

/-- An edge is drawn when it joins nodes, and is attached to their shapes. -/
theorem depiction_drawEdge? {d : Document α} (h : d.nodeIds.Nodup) (ids : Nat → ShapeId)
    (box : Node α → Box α) (path : Box α → Box α → List (Point α)) (e : Edge α) :
    (drawEdge? (drawNodes ids (d.nodes.map fun n => (n, box n))).1 path e).map
        (fun shape => (shape default).depiction) =
      if d.joins e then
        some (e.depiction (some (ids (d.nodeIds.idxOf e.source)))
          (some (ids (d.nodeIds.idxOf e.target))))
      else none := by
  rw [drawEdge?]
  by_cases hsource : e.source ∈ d.nodeIds
  · obtain ⟨m, hm, hmid⟩ := List.mem_map.mp hsource
    by_cases htarget : e.target ∈ d.nodeIds
    · obtain ⟨n, hn, hnid⟩ := List.mem_map.mp htarget
      rw [if_pos (joins_iff.mpr ⟨hsource, htarget⟩), ← hmid, ← hnid, findDrawn?_of_mem h ids box hm,
        findDrawn?_of_mem h ids box hn]
      exact congrArg some (depiction_edgeShape ..)
    · rw [findDrawn?_eq_none_iff.mpr htarget,
        if_neg fun hjoins => htarget (joins_iff.mp hjoins).2]
      cases findDrawn? _ e.source <;> rfl
  · rw [findDrawn?_eq_none_iff.mpr hsource,
      if_neg fun hjoins => hsource (joins_iff.mp hjoins).1]
    rfl

/-- Values that are kept under a condition. -/
theorem filterMap_ite {β γ : Type} (p : β → Bool) (f : β → γ) (xs : List β) :
    xs.filterMap (fun x => if p x then some (f x) else none) = (xs.filter p).map f := by
  induction xs with
  | nil => rfl
  | cons x xs ih => cases hp : p x <;> simp [hp, ih]

/-- **The shapes that are drawn by a plan depict the document, in order.** -/
theorem depictions_draw {d : Document α} (h : d.nodeIds.Nodup) (ids : Nat → ShapeId) (p : Plan α) :
    (d.draw ids p).map Shape.depiction =
      d.depictions p.box fun name => some (ids (d.nodeIds.idxOf name)) := by
  have hedges : (d.edges.mapIdx fun i e => (e, p.way i)).filterMap (fun e =>
      (drawEdge? (drawNodes ids (d.nodes.map fun n => (n, p.box n))).1 e.2 e.1).map
        fun shape => (shape default).depiction) =
      (d.edges.filter d.joins).map fun e =>
        e.depiction (some (ids (d.nodeIds.idxOf e.source)))
          (some (ids (d.nodeIds.idxOf e.target))) := by
    rw [← filterMap_ite]
    exact filterMap_mapIdx (f := fun i e => (e, p.way i))
      (fun i e => depiction_drawEdge? h ids p.box (p.way i) e) d.edges
  have hfree : d.freeArrows.filterMap (fun s =>
      (freeArrowShape? s).map fun shape => (shape default).depiction) =
      (d.freeArrows.filter Style.isAnchored).map fun _ => Depiction.freeArrow := by
    simp only [depiction_freeArrowShape?, filterMap_ite]
  rw [map_draw depiction_withId, hedges, hfree, Document.depictions]
  simp only [depiction_nodeShape]

/-- Only the identities of nodes matter. -/
theorem depictions_congr {d : Document α} {f g : String → Option ShapeId}
    (h : ∀ name ∈ d.nodeIds, f name = g name) (box : Node α → Box α) :
    d.depictions box f = d.depictions box g := by
  have hedges : (d.edges.filter d.joins).map (fun e => e.depiction (f e.source) (f e.target)) =
      (d.edges.filter d.joins).map fun e => e.depiction (g e.source) (g e.target) := by
    refine List.map_congr_left fun e he => ?_
    have hjoins := joins_iff.mp (List.mem_filter.mp he).2
    rw [h _ hjoins.1, h _ hjoins.2]
  rw [Document.depictions, Document.depictions, hedges]

/-- The shape at the place of a node has the identity of that place. -/
theorem shapeIdIn_draw {d : Document α} (h : d.nodeIds.Nodup) (ids : Nat → ShapeId) (p : Plan α)
    {name : String} (hname : name ∈ d.nodeIds) :
    d.shapeIdIn (d.draw ids p) name = some (ids (d.nodeIds.idxOf name)) := by
  have hlength := congrArg List.length (depictions_draw h ids p)
  rw [Document.depictions, List.length_map, List.length_append, List.length_map] at hlength
  have hlt : d.nodeIds.idxOf name < d.nodes.length := by
    simpa [Document.nodeIds] using List.idxOf_lt_length_iff.mpr hname
  have hlt' : d.nodeIds.idxOf name < (d.draw ids p).length := by omega
  rw [Document.shapeIdIn, ← List.getElem?_map, Document.draw, ids_drawAll, ← Document.draw]
  simp [hlt']

/-- The boxes that the nodes of a document are drawn in, given the answer that the engine has
for it: those that the nodes state if all of them do, and otherwise those of the answer. -/
def Document.IsBoxed (d : Document α) (answer : Except LayoutError (LayoutResult α))
    (box : Node α → Box α) : Prop :=
  if d.isPlaced then ∀ n ∈ d.nodes, box n = n.statedBox
  else ∃ r, answer = .ok r ∧ ∀ n ∈ d.nodes, (r.placed? n.id).map PlacedNode.box = some (box n)

theorem isBoxed_of_isPlan {d : Document α} {answer : Except LayoutError (LayoutResult α)}
    {p : Plan α} (h : d.IsPlan answer p) : d.IsBoxed answer p.box := by
  rw [Document.IsBoxed]
  cases h with
  | stated hplaced =>
    rw [if_pos hplaced]
    exact fun _ _ => rfl
  | @answered hplaced r hr hcovers =>
    rw [if_neg hplaced]
    refine ⟨r, hr, fun n hn => ?_⟩
    obtain ⟨m, hm, -⟩ := hcovers n hn
    rw [hm, LayoutResult.box_plan hm]
    rfl

/-- **A document is drawn with exactly one shape for each thing of it, in a fixed order**: the
nodes in their boxes, the edges between nodes, and the free arrows with both ends.  The shapes
get their identities in the same order, and an edge is attached to the shapes of its nodes. -/
theorem depictions_compileIn {σ : Type} (engine : Engine (StateM σ) α) (ids : Nat → ShapeId)
    {d : Document α} (hnodup : d.nodeIds.Nodup) (o : Options α) (s : σ) {shapes : List (Shape α)}
    (h : ((d.compileIn engine ids o).run s).1 = .ok shapes) :
    shapes.map Shape.id = (List.range shapes.length).map ids ∧
      ∃ box, d.IsBoxed ((engine d.layoutGraph (d.effectiveOptions o)).run s).1 box ∧
        shapes.map Shape.depiction = d.depictions box (d.shapeIdIn shapes) := by
  obtain ⟨p, hplan, rfl⟩ := exists_plan h
  refine ⟨ids_drawAll .., p.box, isBoxed_of_isPlan hplan, ?_⟩
  rw [depictions_draw hnodup, depictions_congr fun name hname => shapeIdIn_draw hnodup ids p hname]

end Drawing

/-- Nodes inside and outside a group, an edge to a name that no node has, and a free arrow
without an end; the engine answers for one of the nodes twice. -/
theorem depictions_compileIn_group :
    let d : Document Float :=
      ⟨[.group "g" {} [.node { id := "a", shape := some .circle },
          .edge { source := "a", target := "b", arrow := .dotted, label := some "x" }],
        .edge { source := "a", target := "c", arrow := .right },
        .node { id := "b", label := some "B", shape := some .cylinder },
        .edge { source := "b", target := "a", arrow := .line },
        .freeArrow { x1 := some (0 : Int), y1 := some (0 : Int), x2 := some (9 : Int),
                     y2 := some (9 : Int) },
        .freeArrow { x1 := some (1 : Int) }], []⟩
    let engine : Engine (StateM Nat) Float := fun _ _ => do
      modify (· + 1)
      return .ok ⟨[⟨"a", ⟨(0 : Int), (0 : Int), (1 : Int), (1 : Int)⟩⟩,
        ⟨"b", ⟨(0 : Int), (200 : Int), (80 : Int), (100 : Int)⟩⟩,
        ⟨"a", ⟨(10 : Int), (0 : Int), (80 : Int), (80 : Int)⟩⟩], []⟩
    let ids := ShapeId.random 7
    d.nodeIds.Nodup ∧ ∃ shapes, ((d.compileIn engine ids .default).run 0).1 = .ok shapes ∧
      shapes.map Shape.depiction =
        [.ellipse ⟨(10 : Int), (0 : Int), (80 : Int), (80 : Int)⟩ none,
          .rectangle ⟨(0 : Int), (200 : Int), (80 : Int), (100 : Int)⟩ (8 : Int) (some "B"),
          .arrow false true (some (ids 0)) (some (ids 1)) true (some "x"),
          .line (some (ids 1)) (some (ids 0)) false none,
          .arrow false true none none false none] ∧
      shapes.map Shape.id = (List.range shapes.length).map ids ∧
      ∃ box, d.IsBoxed ((engine d.layoutGraph (d.effectiveOptions .default)).run 0).1 box ∧
        shapes.map Shape.depiction = d.depictions box (d.shapeIdIn shapes) := by
  intro d engine ids
  have hnodup : d.nodeIds.Nodup := by decide +kernel
  have hdepictions : ((d.compileIn engine ids .default).run 0).1.toOption.map
      (List.map Shape.depiction) =
        some [.ellipse ⟨(10 : Int), (0 : Int), (80 : Int), (80 : Int)⟩ none,
          .rectangle ⟨(0 : Int), (200 : Int), (80 : Int), (100 : Int)⟩ (8 : Int) (some "B"),
          .arrow false true (some (ids 0)) (some (ids 1)) true (some "x"),
          .line (some (ids 1)) (some (ids 0)) false none,
          .arrow false true none none false none] := by
    decide +kernel
  cases h : ((d.compileIn engine ids .default).run 0).1 with
  | error e =>
    rw [h] at hdepictions
    cases hdepictions
  | ok shapes =>
    rw [h] at hdepictions
    exact ⟨hnodup, shapes, rfl, Option.some.inj hdepictions,
      depictions_compileIn engine ids hnodup .default 0 h⟩

end Diagram
