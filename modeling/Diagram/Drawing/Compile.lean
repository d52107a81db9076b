import Diagram.Canvas.Shape
import Diagram.Document.Basic
import Diagram.Layout.Graph

/-!
# From documents to shapes

When every node states both its coordinates, nodes are drawn where they say and
edges run from centre to centre.  Otherwise the graph is handed to a layout engine,
once, and drawn as the engine answers.  In both cases an edge that states
coordinates of its ends has them replaced.

The shapes come in a fixed order: one for each node, one for each edge between
nodes of the document, one for each free arrow that states all its coordinates.
-/

namespace Diagram

variable {α : Type} [Scalar α]

/-- Why a document cannot be drawn. -/
inductive CompileError where
  | layout (e : LayoutError)
  | missingNode (id : String)
  deriving DecidableEq, Repr

def CompileError.message : CompileError → String
  | layout e => e.message
  | missingNode id => "layout result has no position for node \x60" ++ id ++ "\x60"

/-! ## What is asked of the engine -/

/-- The options with the algorithm that the document asks for, if it names one. -/
def Document.effectiveOptions (d : Document α) (o : Options α) : Options α :=
  match d.layoutDirective.bind Algorithm.ofName? with
  | some a => { o with algorithm := a }
  | none => o

/-- The name that the `i`th edge has in a layout graph. -/
def edgeKey (i : Nat) : String := "e" ++ toString i

/-- A node as the engine sees it. -/
def SizedNode.ofNode (n : Node α) : SizedNode α := ⟨n.id, n.size.1, n.size.2, n.label⟩

/-- The `i`th edge as the engine sees it. -/
def GraphEdge.ofEdge (i : Nat) (e : Edge α) : GraphEdge := ⟨edgeKey i, e.source, e.target, e.label⟩

/-- The graph of a document. -/
def Document.layoutGraph (d : Document α) : LayoutGraph α :=
  ⟨d.nodes.map SizedNode.ofNode, d.edges.mapIdx GraphEdge.ofEdge⟩

def Document.isPlaced (d : Document α) : Bool :=
  d.nodes.all (fun n => n.style.position.isSome)

/-- What is asked of the engine: nothing when every node is placed. -/
def Document.request? (d : Document α) (o : Options α) : Option (LayoutGraph α × Options α) :=
  if d.isPlaced then none else some (d.layoutGraph, d.effectiveOptions o)

/-! ## Single shapes -/

/-- The properties of a style laid over a way of drawing. -/
def Paint.apply (p : Paint α) (s : Style α) : Paint α where
  stroke := s.stroke.getD p.stroke
  fill := s.fill.getD p.fill
  strokeWidth := s.strokeWidth.getD p.strokeWidth
  opacity := p.opacity
  dashed := p.dashed

/-- The figure of a node of the given size.  Diamonds and cylinders are rectangles
that differ in their corners. -/
def nodeFigure (n : Node α) (width height : α) : Figure α :=
  match n.shapeOrDefault with
  | .rect => .rectangle width height (Scalar.ofNat 4) n.label
  | .circle => .ellipse width height n.label
  | .diamond => .rectangle width height (Scalar.ofNat 0) n.label
  | .cylinder => .rectangle width height (Scalar.ofNat 8) n.label

/-- The shape of a node in its box. -/
def nodeShape (id : ShapeId) (n : Node α) (b : Box α) : Shape α :=
  { Shape.new id b.x b.y (nodeFigure n b.width b.height) with
    paint := Paint.default.apply n.style }

/-- The first point, moved to where the style says an edge starts. -/
def anchorStart (s : Style α) : List (Point α) → List (Point α)
  | [] => []
  | p :: ps => ⟨s.x1.getD p.x, s.y1.getD p.y⟩ :: ps

/-- The last point, moved to where the style says an edge ends. -/
def anchorEnd (s : Style α) : List (Point α) → List (Point α)
  | [] => []
  | [p] => [⟨s.x2.getD p.x, s.y2.getD p.y⟩]
  | p :: q :: ps => p :: anchorEnd s (q :: ps)

/-- The heads of a connector; none for a line. -/
def headsOf : Arrow → Option (Bool × Bool)
  -- a line is a figure of its own, and not an arrow whose heads are off
  | .line => none
  | a => some (a.hasStartHead, a.hasEndHead)

/-- The way an edge is drawn: dashed when dotted, twice as wide when thick. -/
def edgePaint (e : Edge α) : Paint α :=
  let p : Paint α := Paint.default.apply e.style
  match e.arrow with
  | .dotted => { p with dashed := true }
  | .thick => { p with strokeWidth := p.strokeWidth * Scalar.ofNat 2 }
  | _ => p

/-- The shape of an edge along some points, between two shapes. -/
def edgeShape (id : ShapeId) (e : Edge α) (points : List (Point α)) (source target : ShapeId) :
    Shape α :=
  let c := Shape.connector id (anchorEnd e.style (anchorStart e.style points)) (headsOf e.arrow)
  ({ c with paint := edgePaint e }.connect source target).setLabel e.label

/-- The shape of a free arrow, if it states all its coordinates. -/
def freeArrowShape? (s : Style α) : Option (ShapeId → Shape α) := do
  let x1 ← s.x1
  let y1 ← s.y1
  let x2 ← s.x2
  let y2 ← s.y2
  return fun id =>
    { Shape.connector id [⟨x1, y1⟩, ⟨x2, y2⟩] (some (false, true)) with
      paint := Paint.default.apply s }

/-! ## All shapes -/

/-- A node that has been drawn: its name, the identity of its shape, and its box. -/
structure Drawn (α : Type) where
  name : String
  shape : ShapeId
  box : Box α

/-- The node of a given name.  Of several it is the last. -/
def findDrawn? (ds : List (Drawn α)) (name : String) : Option (Drawn α) :=
  ds.reverse.find? (fun d => d.name == name)

/-- Every node with its box and the identity of its shape. -/
def drawNodes (ids : Nat → ShapeId) (boxes : List (Node α × Box α)) :
    List (Drawn α) × List (Shape α) :=
  (boxes.mapIdx (fun i b => ⟨b.1.id, ids i, b.2⟩),
    boxes.mapIdx (fun i b => nodeShape (ids i) b.1 b.2))

/-- An edge between drawn nodes, given where it runs from box to box. -/
def drawEdge? (ds : List (Drawn α)) (path : Box α → Box α → List (Point α)) (e : Edge α) :
    Option (ShapeId → Shape α) := do
  let source ← findDrawn? ds e.source
  let target ← findDrawn? ds e.target
  return fun id => edgeShape id e (path source.box target.box) source.shape target.shape

def centerLine (a b : Box α) : List (Point α) := [a.center, b.center]

/-- The shapes of a document whose nodes have boxes and whose edges have paths. -/
def drawAll (ids : Nat → ShapeId) (boxes : List (Node α × Box α))
    (edges : List (Edge α × (Box α → Box α → List (Point α)))) (free : List (Style α)) :
    List (Shape α) :=
  let (drawn, shapes) := drawNodes ids boxes
  let connectors :=
    edges.filterMap (fun (e, path) => drawEdge? drawn path e) ++ free.filterMap freeArrowShape?
  -- identities are counted on from the nodes; an edge that is not drawn takes none
  shapes ++ connectors.mapIdx (fun i shape => shape (ids (shapes.length + i)))

/-- The box that a node states. -/
def Node.statedBox (n : Node α) : Box α :=
  ⟨n.style.x.getD Scalar.zero, n.style.y.getD Scalar.zero, n.size.1, n.size.2⟩

/-- The shapes of a document whose nodes are all placed. -/
def Document.drawPlaced (ids : Nat → ShapeId) (d : Document α) : List (Shape α) :=
  drawAll ids (d.nodes.map (fun n => (n, n.statedBox))) (d.edges.map (·, centerLine)) d.freeArrows

/-- The box that the engine gives to a node, if its four numbers are finite. -/
def LayoutResult.boxOf (r : LayoutResult α) (id : String) : Except CompileError (Box α) :=
  match r.nodes.reverse.find? (fun n => n.id == id) with
  | none => .error (.missingNode id)
  | some n =>
    if [n.box.x, n.box.y, n.box.width, n.box.height].all Scalar.isFinite then .ok n.box
    else .error (.layout (.nonFinite id))

/-- Appends a polyline, whose first point is left out where the points so far end
with it. -/
def joinPolyline (points next : List (Point α)) : List (Point α) :=
  match points.getLast?, next with
  -- where two sections meet, the point is in both
  | some p, q :: qs => points ++ (if p.same q then qs else q :: qs)
  | _, _ => points ++ next

/-- The points of an edge's sections, joined; nothing when there are none. -/
def joinSections : List (Section α) → Option (List (Point α))
  | [] => none
  | s :: ss => some (ss.foldl (fun points s => joinPolyline points s.polyline) s.polyline)

/-- Where the engine leads the `i`th edge: from centre to centre if it says
nothing. -/
def LayoutResult.pathOf (r : LayoutResult α) (i : Nat) (a b : Box α) : List (Point α) :=
  let routed := r.edges.reverse.find? (fun e => e.id == edgeKey i)
  (routed.bind (fun e => joinSections e.sections)).getD (centerLine a b)

/-- The shapes of a document as the engine has laid it out. -/
def Document.drawResult (ids : Nat → ShapeId) (d : Document α) (r : LayoutResult α) :
    Except CompileError (List (Shape α)) := do
  let boxes ← d.nodes.mapM (fun n => (r.boxOf n.id).map (n, ·))
  return drawAll ids boxes (d.edges.mapIdx (fun i e => (e, r.pathOf i))) d.freeArrows

/-- The shapes of a document, with an engine that may have effects. -/
def Document.compileIn {m : Type → Type} [Monad m] (engine : Engine m α) (ids : Nat → ShapeId)
    (d : Document α) (o : Options α) : m (Except CompileError (List (Shape α))) :=
  match d.request? o with
  | none => pure (.ok (d.drawPlaced ids))
  | some (graph, options) => do
    match ← engine graph options with
    | .ok result => pure (d.drawResult ids result)
    | .error e => pure (.error (.layout e))

/-- The shapes of a document, with an engine that has no effects. -/
def Document.compile (engine : Engine Id α) (ids : Nat → ShapeId) (d : Document α)
    (o : Options α) : Except CompileError (List (Shape α)) :=
  (d.compileIn engine ids o).run

end Diagram
